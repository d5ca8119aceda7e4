import Mathlib
import SchemaScript.Token.Script

namespace SchemaScript

/-- A letter or an underscore, then letters, digits and underscores. -/
def isWord (text : String) : Bool :=
  match text.toList with
  | [] => false
  | c :: cs => startsWord c && cs.all continuesWord

/-- A word that is no keyword. Tables, columns and types have such names. -/
def isName (text : String) : Bool :=
  isWord text && text != "table" && text != "end" && text != "set"

/-- The literals that tokens of a kind can have. A character is illegal when it
opens no other lexeme, or when it is a marker without a word. -/
def Token.Kind.Spells : Token.Kind → String → Prop
  | .eof, literal => literal = ""
  | .eol, literal => literal = ""
  | .tableWord, literal => literal = "table"
  | .endWord, literal => literal = "end"
  | .setWord, literal => literal = "set"
  | .leftParen, literal => literal = "("
  | .rightParen, literal => literal = ")"
  | .comma, literal => literal = ","
  | .attributeName, literal => isWord literal
  | .identifier, literal => isName literal
  | .string, literal => '"' ∉ literal.toList
  | .raw, literal => '\x60' ∉ literal.toList
  | .number, literal => literal ≠ "" ∧ ∀ c ∈ literal.toList, c.isDigit
  | .illegal, literal => ∃ c, literal = String.singleton c ∧
      (c = '@' ∨ Opening.ofChar c = .single .illegal ∧ ¬ isBlank c)

/-- A token whose literal fits its kind. -/
def Token.Spelled (self : Token) : Prop := self.kind.Spells self.literal

theorem continuesWord_of_startsWord {c : Char} (h : startsWord c) : continuesWord c := by
  simp only [startsWord, continuesWord, Char.isAlphanum, Bool.or_eq_true] at h ⊢
  exact h.imp_left .inl

theorem isWord_ofList_cons {c : Char} {cs : List Char} :
    isWord (String.ofList (c :: cs)) ↔ startsWord c ∧ ∀ d ∈ cs, continuesWord d := by
  simp [isWord]

theorem exists_of_isWord {text : String} (h : isWord text) :
    ∃ c cs, text.toList = c :: cs ∧ startsWord c ∧ ∀ d ∈ cs, continuesWord d := by
  unfold isWord at h
  split at h
  next => cases h
  next c cs htext => exact ⟨c, cs, htext, by simpa using h⟩

theorem isWord_of_isName {text : String} (h : isName text) : isWord text := by
  simp only [isName, Bool.and_eq_true] at h
  exact h.1.1.1

theorem not_mem_of_isWord {text : String} {c : Char} (h : isWord text)
    (hc : continuesWord c = false) : c ∉ text.toList := by
  obtain ⟨d, ds, htext, hstart, hcontinue⟩ := exists_of_isWord h
  have hne {e : Char} (he : continuesWord e) : c ≠ e := by
    rintro rfl
    exact Bool.false_ne_true (hc.symm.trans he)
  rw [htext, List.mem_cons]
  rintro (heq | hmem)
  · exact hne (continuesWord_of_startsWord hstart) heq
  · exact hne (hcontinue _ hmem) rfl

/-- Names hold no quotes, so that a name can stand between them. -/
theorem quote_not_mem_of_isName {text : String} (h : isName text) : '"' ∉ text.toList :=
  not_mem_of_isWord (isWord_of_isName h) (by decide)

theorem Token.Kind.ofWord_spells {text : String} (h : isWord text) : (ofWord text).Spells text := by
  unfold ofWord
  split
  next htable => exact htable
  next htable =>
    split
    next hend => exact hend
    next hend =>
      split
      next hset => exact hset
      next hset => simp [Spells, isName, h, htable, hend, hset]

theorem Token.Kind.ofWord_of_isName {text : String} (h : isName text) :
    ofWord text = .identifier := by
  simp only [isName, Bool.and_eq_true, bne_iff_ne] at h
  obtain ⟨⟨⟨_, htable⟩, hend⟩, hset⟩ := h
  simp [ofWord, htable, hend, hset]

/-- What an opening says about the character that makes it. -/
def Opening.Admits (c : Char) : Opening → Prop
  | .lineBreak => c = '\n' ∨ c = '\r'
  | .marker => c = '@'
  | .quote kind => c = '"' ∧ kind = .string ∨ c = '\x60' ∧ kind = .raw
  | .word => startsWord c
  | .digit => c.isDigit
  | .single kind => c = '(' ∧ kind = .leftParen ∨ c = ')' ∧ kind = .rightParen ∨
      c = ',' ∧ kind = .comma ∨ kind = .illegal

theorem Opening.admits_of_ofChar {c : Char} {opening : Opening} (h : ofChar c = opening) :
    opening.Admits c := by
  subst h
  unfold ofChar
  split
  · assumption
  split
  · assumption
  split
  next hstring => exact .inl ⟨hstring, rfl⟩
  split
  next hraw => exact .inr ⟨hraw, rfl⟩
  split
  · assumption
  split
  · assumption
  split
  next hleft => exact .inl ⟨hleft, rfl⟩
  split
  next hright => exact .inr (.inl ⟨hright, rfl⟩)
  split
  next hcomma => exact .inr (.inr (.inl ⟨hcomma, rfl⟩))
  exact .inr (.inr (.inr rfl))

namespace Lexeme

variable {c : Char} {cs : List Char}

theorem lineBreak_spelled : (lineBreak c cs).kind.Spells (lineBreak c cs).literal := by
  unfold lineBreak
  split <;> rfl

theorem marked_spelled (h : c = '@') : (marked c cs).kind.Spells (marked c cs).literal := by
  subst h
  unfold marked
  split
  next hstart =>
    cases cs with
    | nil => simp at hstart
    | cons d ds =>
      have hd : startsWord d := by simpa using hstart
      have hname : (d :: ds).takeWhile continuesWord = d :: ds.takeWhile continuesWord := by
        simp [continuesWord_of_startsWord hd]
      simp only [Token.Kind.Spells, hname, isWord_ofList_cons]
      exact ⟨hd, fun e he => List.mem_takeWhile_imp he⟩
  next => exact ⟨'@', rfl, .inl rfl⟩

/-- A quoted text ends before the first quote. -/
theorem quote_not_mem_takeWhile (c : Char) (cs : List Char) : c ∉ cs.takeWhile (· != c) := by
  intro hmem
  simpa using List.mem_takeWhile_imp hmem

theorem quoted_spelled {kind : Token.Kind} (h : (Opening.quote kind).Admits c) :
    (quoted kind c cs).kind.Spells (quoted kind c cs).literal := by
  have hfree := quote_not_mem_takeWhile c cs
  have hkind : (quoted kind c cs).kind = kind := by unfold quoted; split <;> rfl
  have hliteral : (quoted kind c cs).literal = String.ofList (cs.takeWhile (· != c)) := by
    unfold quoted
    split <;> rfl
  rw [hkind, hliteral]
  rcases h with ⟨rfl, rfl⟩ | ⟨rfl, rfl⟩ <;>
    simpa [Token.Kind.Spells] using hfree

theorem word_spelled (h : startsWord c) : (word c cs).kind.Spells (word c cs).literal :=
  Token.Kind.ofWord_spells
    (isWord_ofList_cons.mpr ⟨h, fun _ hmem => List.mem_takeWhile_imp hmem⟩)

theorem number_spelled (h : c.isDigit) : (number c cs).kind.Spells (number c cs).literal := by
  refine ⟨by simp [number], ?_⟩
  intro d hd
  rcases List.mem_cons.mp (by simpa [number] using hd) with rfl | hmem
  · exact h
  · exact List.mem_takeWhile_imp hmem

theorem single_spelled {kind : Token.Kind} (h : Opening.ofChar c = .single kind)
    (hblank : ¬ isBlank c) : (single kind c cs).kind.Spells (single kind c cs).literal := by
  rcases Opening.admits_of_ofChar h with ⟨rfl, rfl⟩ | ⟨rfl, rfl⟩ | ⟨rfl, rfl⟩ | rfl
  · rfl
  · rfl
  · rfl
  · exact ⟨c, rfl, .inr ⟨h, hblank⟩⟩

theorem read_spelled (hblank : ¬ isBlank c) : (read c cs).kind.Spells (read c cs).literal := by
  unfold read
  split
  next => exact lineBreak_spelled
  next h => exact marked_spelled (Opening.admits_of_ofChar h)
  next h => exact quoted_spelled (Opening.admits_of_ofChar h)
  next h => exact word_spelled (Opening.admits_of_ofChar h)
  next h => exact number_spelled (Opening.admits_of_ofChar h)
  next h => exact single_spelled h hblank

end Lexeme

namespace Cursor

variable {self last : Cursor} {tokens : List Token}

theorem skipGap_cases (self : Cursor) :
    (∃ p, self.skipGap = ⟨[], p⟩) ∨
      ∃ c cs p, self.skipGap = ⟨c :: cs, p⟩ ∧ isGap c cs = false := by
  unfold skipGap
  generalize self.position = p
  induction self.rest generalizing p with
  | nil => exact .inl ⟨p, rfl⟩
  | cons c cs ih =>
    rw [afterGap]
    split
    next => exact ih p.nextColumn
    next hgap => exact .inr ⟨c, cs, p, rfl, by simpa using hgap⟩

/-- The literal of every token that is read fits its kind. -/
theorem next_spelled (self : Cursor) : self.next.1.Spelled := by
  unfold next
  obtain ⟨p, hskip⟩ | ⟨c, cs, p, hskip, hgap⟩ := self.skipGap_cases
  · rw [hskip]
    rfl
  · have hblank : ¬ isBlank c := by
      intro hblank
      simp [isGap, hblank] at hgap
    rw [hskip]
    exact Lexeme.read_spelled hblank

/-- `self.Yields tokens last` says that reading on from `self` gives the tokens,
none of them the end token, and leaves the cursor `last`. -/
inductive Yields : Cursor → List Token → Cursor → Prop where
  | nil (self : Cursor) : Yields self [] self
  | cons {self rest last : Cursor} {token : Token} {tokens : List Token}
      (hnext : self.next = (token, rest)) (hkind : token.kind ≠ .eof)
      (htail : Yields rest tokens last) : Yields self (token :: tokens) last

theorem Yields.spelled (h : Yields self tokens last) :
    ∀ token ∈ tokens, token.Spelled ∧ token.kind ≠ .eof := by
  induction h with
  | nil => simp
  | @cons self rest last token tokens hnext hkind _ ih =>
    intro other hother
    rcases List.mem_cons.mp hother with rfl | hother
    · have hspelled := self.next_spelled
      rw [hnext] at hspelled
      exact ⟨hspelled, hkind⟩
    · exact ih other hother

/-- Reading on from any cursor comes to the end token. -/
theorem exists_yields (self : Cursor) :
    ∃ tokens last, Yields self tokens last ∧ last.next.1.kind = .eof := by
  induction hlength : self.rest.length using Nat.strongRecOn generalizing self with
  | ind length ih =>
    by_cases hkind : self.next.1.kind = .eof
    · exact ⟨[], self, .nil self, hkind⟩
    · have hshorter := self.next_rest_length_lt hkind
      obtain ⟨tokens, last, hyields, heof⟩ := ih _ (by omega) self.next.2 rfl
      exact ⟨self.next.1 :: tokens, last, .cons rfl hkind hyields, heof⟩

end Cursor

namespace Script

variable {cursor last : Cursor} {tokens : List Token}

theorem collect_eq_of_yields (read : List Token) (h : cursor.Yields tokens last)
    (heof : last.next.1.kind = .eof) :
    collect read cursor = ⟨read.reverse ++ tokens, last.next.1⟩ := by
  induction h generalizing read with
  | nil self =>
    rw [collect, if_pos heof]
    simp
  | @cons self rest last token tokens hnext hkind _ ih =>
    have htoken : self.next.1 = token := by rw [hnext]
    have hrest : self.next.2 = rest := by rw [hnext]
    rw [collect, htoken, hrest, if_neg hkind, ih (token :: read) heof]
    simp

/-- The tokens of a text are those that its cursor yields before the end token. -/
theorem ofText_eq_of_yields {source : String} (h : (Cursor.ofText source).Yields tokens last)
    (heof : last.next.1.kind = .eof) : ofText source = ⟨tokens, last.next.1⟩ :=
  collect_eq_of_yields [] h heof

theorem ofText_tokens_spelled (source : String) :
    ∀ token ∈ (ofText source).tokens, token.Spelled ∧ token.kind ≠ .eof := by
  obtain ⟨tokens, last, hyields, heof⟩ := (Cursor.ofText source).exists_yields
  rw [ofText_eq_of_yields hyields heof]
  exact hyields.spelled

theorem ofText_eof_kind (source : String) : (ofText source).eof.kind = .eof := by
  obtain ⟨tokens, last, hyields, heof⟩ := (Cursor.ofText source).exists_yields
  rw [ofText_eq_of_yields hyields heof]
  exact heof

/-- The literals of all tokens of a text, the end token included, fit their kinds. -/
theorem ofText_toList_spelled (source : String) :
    ∀ token ∈ (ofText source).toList, token.Spelled := by
  obtain ⟨tokens, last, hyields, heof⟩ := (Cursor.ofText source).exists_yields
  rw [ofText_eq_of_yields hyields heof]
  intro token hmem
  rcases List.mem_append.mp hmem with hmem | hmem
  · exact (hyields.spelled token hmem).1
  · rw [List.mem_singleton.mp hmem]
    exact last.next_spelled

end Script

end SchemaScript
