import Mathlib
import SchemaScript.Proofs.Munch

namespace SchemaScript

/-- A token as it is shown in messages, but with a line feed for a line end. -/
def Token.written (self : Token) : String := if self.kind = .eol then "\n" else self.text

/-- Tokens one after the other, with one blank between any two of them. -/
def Token.spaced (tokens : List Token) : String := " ".intercalate (tokens.map Token.written)

/-- The literals of the kinds of tokens, but for the end and for the lone marker. -/
inductive Label.Lexical : Label → Prop where
  | eol : Lexical ⟨.eol, ""⟩
  | keyword {kind : Token.Kind} {word : String}
      (hword : (kind, word) ∈ [(.tableWord, "table"), (.endWord, "end"), (.setWord, "set")]) :
      Lexical ⟨kind, word⟩
  | identifier {name : String} (hname : isName name) : Lexical ⟨.identifier, name⟩
  | attributeName {name : String} (hname : isWord name) : Lexical ⟨.attributeName, name⟩
  | quoted {kind : Token.Kind} {quote : Char} {literal : String}
      (hquote : (kind, quote) ∈ [(.string, '"'), (.raw, '\x60')]) (hfree : quote ∉ literal.toList) :
      Lexical ⟨kind, literal⟩
  | number {digits : String} (hne : digits ≠ "") (hdigits : ∀ c ∈ digits.toList, c.isDigit) :
      Lexical ⟨.number, digits⟩
  | punctuation {kind : Token.Kind} {mark : String}
      (hmark : (kind, mark) ∈ [(.leftParen, "("), (.rightParen, ")"), (.comma, ",")]) :
      Lexical ⟨kind, mark⟩
  | stray {c : Char} (hc : IsStray c) : Lexical ⟨.illegal, String.singleton c⟩

theorem Label.Lexical.writable {self : Label} (h : self.Lexical) : self.Writable := by
  cases h with
  | eol => exact ⟨rfl, by decide, by decide⟩
  | keyword hword =>
    simp only [List.mem_cons, Prod.mk.injEq, List.not_mem_nil, or_false] at hword
    rcases hword with ⟨rfl, rfl⟩ | ⟨rfl, rfl⟩ | ⟨rfl, rfl⟩ <;> exact ⟨rfl, by decide, by decide⟩
  | identifier hname => exact ⟨hname, nofun, nofun⟩
  | attributeName hname => exact ⟨hname, nofun, nofun⟩
  | quoted hquote hfree =>
    simp only [List.mem_cons, Prod.mk.injEq, List.not_mem_nil, or_false] at hquote
    rcases hquote with ⟨rfl, rfl⟩ | ⟨rfl, rfl⟩ <;> exact ⟨hfree, nofun, nofun⟩
  | number hne hdigits => exact ⟨⟨hne, hdigits⟩, nofun, nofun⟩
  | punctuation hmark =>
    simp only [List.mem_cons, Prod.mk.injEq, List.not_mem_nil, or_false] at hmark
    rcases hmark with ⟨rfl, rfl⟩ | ⟨rfl, rfl⟩ | ⟨rfl, rfl⟩ <;> exact ⟨rfl, by decide, by decide⟩
  | @stray c hc =>
    obtain ⟨hopening, hblank⟩ := isStray_iff.mp hc
    refine ⟨⟨c, rfl, .inr ⟨hopening, by simp [hblank]⟩⟩, nofun, fun _ hliteral => hc.1 ?_⟩
    obtain rfl : c = '@' := by simpa using congrArg String.toList hliteral
    decide

namespace Token

variable {self next : Token} {tokens : List Token}

theorem written_toList (h : self.kind ≠ .eof) : self.written.toList = self.label.text := by
  obtain ⟨kind, literal, position⟩ := self
  cases kind with
  | eof => exact absurd rfl h
  | eol | attributeName => simp [written, text, label, Label.text]
  | string | raw => simp [written, text, label, Label.text]
  | _ => rfl

theorem spaced_toList_cons_cons :
    (spaced (self :: next :: tokens)).toList =
      self.written.toList ++ ' ' :: (spaced (next :: tokens)).toList := by
  simp [spaced]

/-- Spaced tokens are a writing of them. No token can run on into the blank after it. -/
theorem written_spaced (h : ∀ token ∈ tokens, token.label.Writable) :
    Written (spaced tokens).toList (tokens.map label) := by
  induction tokens with
  | nil => exact .nil
  | cons token tokens ih =>
    rw [List.forall_mem_cons] at h
    have htext := written_toList h.1.notEof
    cases tokens with
    | nil =>
      have hlast : Written (token.label.text ++ []) [token.label] :=
        .label h.1 (fun _ _ hc => by cases hc) .nil
      simpa [spaced, ← htext] using hlast
    | cons next tokens =>
      rw [spaced_toList_cons_cons, htext]
      exact .label h.1 (fun _ => endsWord_cons (by decide)) (.blank rfl (ih h.2))

end Token

namespace Script

/-- Showing and scanning are inverse. The tokens of a text without a lone marker are
scanned again from the text that shows them, and so is every list of tokens that
could be those of some text. -/
theorem ofText_spaced :
    (∀ source, (∀ token ∈ (ofText source).tokens, token.label ≠ ⟨.illegal, "@"⟩) →
      (ofText (Token.spaced (ofText source).tokens)).toList.map Token.label =
        (ofText source).toList.map Token.label) ∧
    (∀ tokens : List Token, (∀ token ∈ tokens, token.label.Lexical) →
      (ofText (Token.spaced tokens)).toList.map Token.label =
        tokens.map Token.label ++ [⟨.eof, ""⟩]) := by
  have hagain {tokens : List Token} (h : ∀ token ∈ tokens, token.label.Writable) :
      (ofText (Token.spaced tokens)).toList.map Token.label =
        tokens.map Token.label ++ [⟨.eof, ""⟩] := by
    rw [ofText_toList_labels, ofText_labels (Token.written_spaced h)]
  constructor
  · intro source hmarker
    rw [ofText_toList_labels source]
    refine hagain fun token htoken => ?_
    obtain ⟨hspelled, hkind⟩ := ofText_tokens_spelled source token htoken
    exact ⟨hspelled, hkind, fun hillegal hliteral =>
      hmarker token htoken (Token.label_eq_iff.mpr ⟨hillegal, hliteral⟩)⟩
  · intro tokens hlexical
    exact hagain fun token htoken => (hlexical token htoken).writable

/-- A text that breaks off inside of a literal with a line break, a marker and the other
quote in it, and tokens that no blank or line break had to keep apart. -/
theorem ofText_spaced_of_open_literal :
    Token.spaced (ofText "@end\n12x\"a\r\n@ `").tokens = "@end \n 12 x \"a\r\n@ `\"" ∧
      (ofText (Token.spaced (ofText "@end\n12x\"a\r\n@ `").tokens)).toList.map Token.label =
        (ofText "@end\n12x\"a\r\n@ `").toList.map Token.label ∧
      (ofText (Token.spaced
        [⟨.illegal, "é", .start⟩, ⟨.raw, "\"\r", .start⟩])).toList.map Token.label =
          [⟨.illegal, "é"⟩, ⟨.raw, "\"\r"⟩, ⟨.eof, ""⟩] := by
  have htokens : (ofText "@end\n12x\"a\r\n@ `").tokens =
      [⟨.attributeName, "end", ⟨1, 1⟩⟩, ⟨.eol, "", ⟨1, 5⟩⟩, ⟨.number, "12", ⟨2, 1⟩⟩,
        ⟨.identifier, "x", ⟨2, 3⟩⟩, ⟨.string, "a\r\n@ `", ⟨2, 4⟩⟩] := by
    cbv
  refine ⟨by rw [htokens]; decide, ofText_spaced.1 _ ?_, ofText_spaced.2 _ ?_⟩
  · rw [htokens]
    decide
  · intro token htoken
    simp only [List.mem_cons, List.not_mem_nil, or_false] at htoken
    rcases htoken with rfl | rfl
    · exact .stray (c := 'é') (isStray_iff.mpr (by decide))
    · exact .quoted (.tail _ (.head _)) (by decide)

end Script

end SchemaScript
