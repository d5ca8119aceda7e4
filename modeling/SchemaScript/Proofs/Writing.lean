import Mathlib
import SchemaScript.Proofs.Scanning

namespace SchemaScript

/-- A token without its place. -/
structure Label where
  kind : Token.Kind
  literal : String
deriving DecidableEq

/-- The token without its place. -/
def Token.label (self : Token) : Label := ⟨self.kind, self.literal⟩

theorem Token.label_eq_iff {self : Token} {label : Label} :
    self.label = label ↔ self.kind = label.kind ∧ self.literal = label.literal := by
  cases label
  simp [Token.label]

/-- Tokens of the kind take letters and digits that follow them along. -/
def Token.Kind.runsOn : Token.Kind → Bool
  | .tableWord | .endWord | .setWord | .identifier | .attributeName | .number => true
  | _ => false

/-- A text that does not go on with a word or a number. -/
def EndsWord (rest : List Char) : Prop := ∀ c ∈ rest.head?, continuesWord c = false

theorem endsWord_cons {c : Char} {rest : List Char} (h : continuesWord c = false) :
    EndsWord (c :: rest) := by
  intro d hd
  cases hd
  exact h

theorem EndsWord.isDigit_eq_false {rest : List Char} (h : EndsWord rest) :
    ∀ c ∈ rest.head?, c.isDigit = false := by
  intro c hc
  have hc := h c hc
  simp only [continuesWord, Char.isAlphanum, Bool.or_eq_false_iff] at hc
  exact hc.1.2

namespace Label

/-- The characters that a token is written with. -/
def text (self : Label) : List Char :=
  match self.kind with
  | .eol => ['\n']
  | .attributeName => '@' :: self.literal.toList
  | .string => '"' :: (self.literal.toList ++ ['"'])
  | .raw => '\x60' :: (self.literal.toList ++ ['\x60'])
  | _ => self.literal.toList

/-- The token can be written so that it is read again. A lone marker cannot, since
a blank after it would take it away. -/
structure Writable (label : Label) : Prop where
  spelled : label.kind.Spells label.literal
  notEof : label.kind ≠ .eof
  notMarker : label.kind = .illegal → label.literal ≠ "@"

/-- The text begins with the token, and `rest` is what comes after it. -/
def Heads (self : Label) (text rest : List Char) : Prop :=
  ∃ c cs, text = c :: cs ∧ Cursor.isGap c cs = false ∧
    (Lexeme.read c cs).kind = self.kind ∧ (Lexeme.read c cs).literal = self.literal ∧
    (Lexeme.read c cs).rest = rest

end Label

section Lexemes

variable {c : Char} {cs rest : List Char}

private theorem ne_of_class {p : Char → Bool} {d : Char} (h : p c) (hd : p d = false) : c ≠ d := by
  rintro rfl
  simp [h] at hd

theorem Opening.ofChar_of_startsWord (h : startsWord c) : ofChar c = .word := by
  have hne (d : Char) (hd : startsWord d = false) : c ≠ d := ne_of_class h hd
  simp [ofChar, h, hne '\n' (by decide), hne '\r' (by decide), hne '@' (by decide),
    hne '"' (by decide), hne '\x60' (by decide)]

theorem startsWord_eq_false_of_isDigit (h : c.isDigit) : startsWord c = false := by
  have hne : c ≠ '_' := ne_of_class h (by decide)
  simp only [Char.isDigit, Bool.and_eq_true, decide_eq_true_eq, ge_iff_le,
    UInt32.le_iff_toNat_le] at h
  simp only [startsWord, Char.isAlpha, Char.isUpper, Char.isLower, ge_iff_le,
    UInt32.le_iff_toNat_le, Bool.or_eq_false_iff, Bool.and_eq_false_iff, decide_eq_false_iff_not]
  grind

theorem Opening.ofChar_of_isDigit (h : c.isDigit) : ofChar c = .digit := by
  have hne (d : Char) (hd : d.isDigit = false) : c ≠ d := ne_of_class h hd
  simp [ofChar, h, startsWord_eq_false_of_isDigit h, hne '\n' (by decide), hne '\r' (by decide),
    hne '@' (by decide), hne '"' (by decide), hne '\x60' (by decide)]

theorem isBlank_eq_false_of_startsWord (h : startsWord c) : isBlank c = false := by
  have hne (d : Char) (hd : startsWord d = false) : c ≠ d := ne_of_class h hd
  simp [isBlank, hne ' ' (by decide), hne '\t' (by decide)]

theorem isBlank_eq_false_of_isDigit (h : c.isDigit) : isBlank c = false := by
  have hne (d : Char) (hd : d.isDigit = false) : c ≠ d := ne_of_class h hd
  simp [isBlank, hne ' ' (by decide), hne '\t' (by decide)]

/-- A run of characters ends where the text after it says so. -/
theorem takeWhile_dropWhile_append {p : Char → Bool} (hall : ∀ d ∈ cs, p d)
    (hrest : ∀ d ∈ rest.head?, p d = false) :
    (cs ++ rest).takeWhile p = cs ∧ (cs ++ rest).dropWhile p = rest := by
  rw [List.takeWhile_append_of_pos hall, List.dropWhile_append_of_pos hall]
  cases rest with
  | nil => simp
  | cons d ds => simp [hrest d rfl]

end Lexemes

namespace Label

variable {literal : String} {rest : List Char}

theorem heads_word (h : isWord literal) (hrest : EndsWord rest) :
    Heads ⟨.ofWord literal, literal⟩ (literal.toList ++ rest) rest := by
  obtain ⟨c, cs, hlist, hstart, hcontinue⟩ := exists_of_isWord h
  have hliteral : String.ofList (c :: cs) = literal := by rw [← hlist, String.ofList_toList]
  obtain ⟨htake, hdrop⟩ := takeWhile_dropWhile_append hcontinue hrest
  have hmarker : c ≠ '@' := ne_of_class hstart (by decide)
  refine ⟨c, cs ++ rest, by simp [hlist], ?_, ?_⟩
  · simp [Cursor.isGap, isBlank_eq_false_of_startsWord hstart, hmarker]
  · simp only [Lexeme.read, Opening.ofChar_of_startsWord hstart, Lexeme.word, htake, hdrop,
      hliteral, and_self]

theorem heads_attribute (h : isWord literal) (hrest : EndsWord rest) :
    Heads ⟨.attributeName, literal⟩ ('@' :: (literal.toList ++ rest)) rest := by
  obtain ⟨c, cs, hlist, hstart, hcontinue⟩ := exists_of_isWord h
  have hall : ∀ d ∈ literal.toList, continuesWord d := by
    simpa [hlist, continuesWord_of_startsWord hstart] using hcontinue
  obtain ⟨htake, hdrop⟩ := takeWhile_dropWhile_append hall hrest
  have hfirst : (literal.toList ++ rest).head? = some c := by simp [hlist]
  refine ⟨'@', literal.toList ++ rest, rfl, ?_, ?_⟩
  · have hblank := isBlank_eq_false_of_startsWord hstart
    simp [Cursor.isGap, hfirst, hblank, show isBlank '@' = false from rfl]
  · simp [Lexeme.read, show Opening.ofChar '@' = .marker by decide, Lexeme.marked, hfirst, hstart,
      htake, hdrop]

theorem heads_number (hne : literal ≠ "") (hdigits : ∀ d ∈ literal.toList, d.isDigit)
    (hrest : ∀ d ∈ rest.head?, d.isDigit = false) :
    Heads ⟨.number, literal⟩ (literal.toList ++ rest) rest := by
  obtain ⟨c, cs, hlist⟩ := List.exists_cons_of_ne_nil (by simpa using hne : literal.toList ≠ [])
  have hliteral : String.ofList (c :: cs) = literal := by rw [← hlist, String.ofList_toList]
  rw [hlist, List.forall_mem_cons] at hdigits
  obtain ⟨htake, hdrop⟩ := takeWhile_dropWhile_append hdigits.2 hrest
  have hmarker : c ≠ '@' := ne_of_class hdigits.1 (by decide)
  refine ⟨c, cs ++ rest, by simp [hlist], ?_, ?_⟩
  · simp [Cursor.isGap, isBlank_eq_false_of_isDigit hdigits.1, hmarker]
  · simp only [Lexeme.read, Opening.ofChar_of_isDigit hdigits.1, Lexeme.number, htake, hdrop,
      hliteral, and_self]

/-- A quoted text is read up to its closing quote, or up to the end where there is none. -/
theorem heads_quote {kind : Token.Kind} {quote : Char} {tail : List Char}
    (hquote : (Opening.quote kind).Admits quote) (hfree : quote ∉ literal.toList)
    (htail : ∀ d ∈ tail.head?, d = quote) :
    Heads ⟨kind, literal⟩ (quote :: (literal.toList ++ tail)) tail.tail := by
  have hall : ∀ d ∈ literal.toList, (d != quote) = true := by
    intro d hd
    have hne : d ≠ quote := by
      rintro rfl
      exact hfree hd
    simpa using hne
  obtain ⟨htake, hdrop⟩ := takeWhile_dropWhile_append hall
    (by simpa using htail : ∀ d ∈ tail.head?, (d != quote) = false)
  have hopening : Opening.ofChar quote = .quote kind := by
    rcases hquote with ⟨rfl, rfl⟩ | ⟨rfl, rfl⟩ <;> decide
  refine ⟨quote, literal.toList ++ tail, rfl, ?_, ?_⟩
  · rcases hquote with ⟨rfl, _⟩ | ⟨rfl, _⟩ <;> rfl
  · simp only [Lexeme.read, hopening, Lexeme.quoted, htake, hdrop]
    cases tail <;> simp

theorem heads_quoted {kind : Token.Kind} {quote : Char} (hquote : (Opening.quote kind).Admits quote)
    (hfree : quote ∉ literal.toList) :
    Heads ⟨kind, literal⟩ (quote :: (literal.toList ++ [quote] ++ rest)) rest := by
  rw [List.append_assoc]
  exact heads_quote hquote hfree (by simp)

theorem heads_single {kind : Token.Kind} {c : Char} (hopening : Opening.ofChar c = .single kind)
    (hblank : isBlank c = false) (hmarker : c ≠ '@') :
    Heads ⟨kind, String.singleton c⟩ (c :: rest) rest := by
  refine ⟨c, rest, rfl, ?_, ?_⟩
  · simp [Cursor.isGap, hblank, hmarker]
  · simp [Lexeme.read, hopening, Lexeme.single]

theorem heads_eol : Heads ⟨.eol, ""⟩ ('\n' :: rest) rest :=
  ⟨'\n', rest, rfl, rfl, rfl, rfl, rfl⟩

/-- A token that is written is read again, if what follows does not lengthen it. -/
theorem Writable.heads {self : Label} (h : self.Writable)
    (hrest : self.kind.runsOn → EndsWord rest) : self.Heads (self.text ++ rest) rest := by
  obtain ⟨kind, literal⟩ := self
  obtain ⟨hspelled, hnotEof, hnotMarker⟩ := h
  cases kind with
  | eof => exact absurd rfl hnotEof
  | eol =>
    cases hspelled
    exact heads_eol
  | tableWord | endWord | setWord =>
    cases hspelled
    exact heads_word (by decide) (hrest rfl)
  | identifier =>
    have hheads := heads_word (isWord_of_isName hspelled) (hrest rfl)
    rwa [Token.Kind.ofWord_of_isName hspelled] at hheads
  | leftParen | rightParen | comma =>
    cases hspelled
    exact heads_single (by decide) (by decide) (by decide)
  | attributeName => exact heads_attribute hspelled (hrest rfl)
  | string => exact heads_quoted (.inl ⟨rfl, rfl⟩) hspelled
  | raw => exact heads_quoted (.inr ⟨rfl, rfl⟩) hspelled
  | number => exact heads_number hspelled.1 hspelled.2 (hrest rfl).isDigit_eq_false
  | illegal =>
    obtain ⟨c, rfl, hc⟩ := hspelled
    have hmarker : c ≠ '@' := by
      rintro rfl
      exact hnotMarker rfl rfl
    obtain ⟨hopening, hblank⟩ := hc.resolve_left hmarker
    simpa [text] using heads_single hopening (by simpa using hblank) hmarker

end Label

theorem Label.Heads.next {self : Label} {text rest : List Char} (h : self.Heads text rest)
    (p : Position) :
    ∃ q, (⟨text, p⟩ : Cursor).next = (⟨self.kind, self.literal, p⟩, ⟨rest, q⟩) := by
  obtain ⟨c, cs, rfl, hgap, hkind, hliteral, hrest⟩ := h
  refine ⟨p.after (Lexeme.read c cs).text, ?_⟩
  simp [Cursor.next, Cursor.skipGap, Cursor.afterGap, hgap, Cursor.cut, hkind, hliteral, hrest]

/-- `Written text labels` says that the text is made of the labels, with blanks
between them wherever a word would go on otherwise. -/
inductive Written : List Char → List Label → Prop where
  | nil : Written [] []
  | blank {c : Char} {text : List Char} {labels : List Label} (hblank : isBlank c)
      (hrest : Written text labels) : Written (c :: text) labels
  | label {label : Label} {text : List Char} {labels : List Label} (hwritable : label.Writable)
      (hends : label.kind.runsOn → EndsWord text) (hrest : Written text labels) :
      Written (label.text ++ text) (label :: labels)

namespace Written

variable {text : List Char} {labels : List Label}

/-- The tokens of a written text are those it was written with. -/
theorem exists_yields (h : Written text labels) (p : Position) :
    ∃ tokens last, (⟨text, p⟩ : Cursor).Yields tokens last ∧ last.next.1.kind = .eof ∧
      tokens.map Token.label = labels := by
  induction h generalizing p with
  | nil => exact ⟨[], ⟨[], p⟩, .nil _, rfl, rfl⟩
  | @blank c text labels hblank _ ih =>
    obtain ⟨tokens, last, hyields, hend, htokens⟩ := ih p.nextColumn
    -- The blank is skipped with the gap before the next token or before the end.
    have hgap : Cursor.isGap c text = true := by simp [Cursor.isGap, hblank]
    have hnext : (⟨c :: text, p⟩ : Cursor).next = (⟨text, p.nextColumn⟩ : Cursor).next := by
      simp [Cursor.next, Cursor.skipGap, Cursor.afterGap, hgap]
    cases hyields with
    | nil => exact ⟨[], ⟨c :: text, p⟩, .nil _, hnext ▸ hend, htokens⟩
    | cons htoken hkind htail =>
      exact ⟨_, last, .cons (hnext.trans htoken) hkind htail, hend, htokens⟩
  | @label label text labels hwritable hends _ ih =>
    obtain ⟨q, hnext⟩ := (hwritable.heads hends).next p
    obtain ⟨tokens, last, hyields, hend, htokens⟩ := ih q
    refine ⟨_ :: tokens, last, .cons hnext hwritable.notEof hyields, hend, ?_⟩
    rw [List.map_cons, htokens]
    rfl

end Written

namespace Script

theorem ofText_labels {source : String} {labels : List Label}
    (h : Written source.toList labels) : (ofText source).tokens.map Token.label = labels := by
  obtain ⟨tokens, last, hyields, hend, htokens⟩ := h.exists_yields .start
  rw [ofText_eq_of_yields hyields hend]
  exact htokens

/-- The end token has the same label in every script. -/
theorem ofText_eof_label (source : String) : (ofText source).eof.label = ⟨.eof, ""⟩ := by
  have hkind := ofText_eof_kind source
  have hspelled := ofText_toList_spelled source (ofText source).eof (by simp [toList])
  rw [Token.Spelled, hkind] at hspelled
  exact Token.label_eq_iff.mpr ⟨hkind, hspelled⟩

theorem ofText_toList_labels (source : String) :
    (ofText source).toList.map Token.label =
      (ofText source).tokens.map Token.label ++ [⟨.eof, ""⟩] := by
  rw [toList, List.map_append, List.map_singleton, ofText_eof_label]

end Script

/-- Tokens of the kind stand right after the token before them. -/
def Token.Kind.sticks : Token.Kind → Bool
  | .eol | .leftParen | .rightParen | .comma => true
  | _ => false

namespace Label

/-- What is written between two tokens of a line. -/
def gap (self next : Label) : List Char :=
  if self.kind = .eol ∨ self.kind = .leftParen ∨ next.kind.sticks then [] else [' ']

/-- Writes tokens with a blank between them, but with none at line ends, inside of
parentheses and before commas. -/
def write : List Label → List Char
  | [] => []
  | [label] => label.text
  | label :: next :: rest => label.text ++ (label.gap next ++ write (next :: rest))

theorem endsWord_of_sticks {self : Label} {rest : List Label} (h : self.Writable)
    (hsticks : self.kind.sticks) : EndsWord (write (self :: rest)) := by
  have htext (tail : List Char) : EndsWord (self.text ++ tail) := by
    obtain ⟨kind, literal⟩ := self
    have hspelled := h.spelled
    cases kind with
    | eol => exact endsWord_cons (by decide)
    | leftParen | rightParen | comma =>
      cases hspelled
      exact endsWord_cons (by decide)
    | _ => cases hsticks
  cases rest with
  | nil => simpa [write] using htext []
  | cons next rest => exact htext _

theorem written_write {labels : List Label} (h : ∀ label ∈ labels, label.Writable) :
    Written (write labels) labels := by
  induction labels with
  | nil => exact .nil
  | cons label rest ih =>
    rw [List.forall_mem_cons] at h
    cases rest with
    | nil =>
      have hlast : Written (label.text ++ []) [label] := .label h.1 (fun _ _ hc => by cases hc) .nil
      simpa [write] using hlast
    | cons next rest =>
      have hrest := ih h.2
      unfold write gap
      split
      next hnone =>
        refine .label h.1 ?_ hrest
        intro hruns
        have hsticks : next.kind.sticks := by
          rcases hnone with hkind | hkind | hsticks
          · simp [hkind, Token.Kind.runsOn] at hruns
          · simp [hkind, Token.Kind.runsOn] at hruns
          · exact hsticks
        exact endsWord_of_sticks (h.2 next List.mem_cons_self) hsticks
      next => exact .label h.1 (fun _ => endsWord_cons (by decide)) (.blank rfl hrest)

end Label

end SchemaScript
