import Mathlib
import SchemaScript.Proofs.Munch

namespace SchemaScript

/-- What can be asked of a cursor. It cuts its text only as far as it is asked to. -/
inductive Call where
  | next
  | peek
  | next?
deriving DecidableEq

/-- The call moves past the token that it answers. -/
def Call.takes : Call → Bool
  | .peek => false
  | .next | .next? => true

namespace Cursor

/-- The answer to a call, and the cursor that the next call is made on. -/
def call (self : Cursor) : Call → Option Token × Cursor
  | .next => (some self.next.1, self.next.2)
  | .peek => (some self.peek, self)
  | .next? => self.next?

/-- The answers to calls that are made one after the other. -/
def answers (self : Cursor) : List Call → List (Option Token)
  | [] => []
  | call :: calls => (self.call call).1 :: (self.call call).2.answers calls

end Cursor

namespace Script

/-- The answer to a call when `taken` tokens have been taken. Only the end token is left
when there are no others, and `next?` does not give it. -/
def answer (self : Script) (taken : Nat) : Call → Option Token
  | .next | .peek => some (self.tokens[taken]?.getD self.eof)
  | .next? => self.tokens[taken]?

/-- The answers to calls that are made one after the other, when `taken` tokens have been
taken before. -/
def answers (self : Script) (taken : Nat) : List Call → List (Option Token)
  | [] => []
  | call :: calls => self.answer taken call :: self.answers (taken + call.takes.toNat) calls

end Script

namespace Cursor

/-- The end token is read at the end of the text, and the cursor stays there. -/
theorem next_of_eof {self : Cursor} (h : self.next.1.kind = .eof) :
    ∃ p, self.next = (⟨.eof, "", p⟩, ⟨[], p⟩) := by
  unfold next at h ⊢
  obtain ⟨p, hskip⟩ | ⟨c, cs, p, hskip, hgap⟩ := self.skipGap_cases
  · rw [hskip]
    exact ⟨p, rfl⟩
  · -- A character that is not skipped opens some other token.
    rw [hskip] at h
    exact absurd h (Lexeme.read_spans hgap).kind_ne_eof

theorem next_next_of_eof {self : Cursor} (h : self.next.1.kind = .eof) :
    self.next.2.next = self.next := by
  obtain ⟨p, hnext⟩ := next_of_eof h
  rw [hnext]
  rfl

end Cursor

namespace Script

variable {self : Script} {taken : Nat} {cursor : Cursor}

/-- The cursor stands behind the first `taken` tokens of the script, or at its end when
there are not so many. -/
structure Marks (script : Script) (taken : Nat) (cursor : Cursor) : Prop where
  ahead : ∃ last, cursor.Yields (script.tokens.drop taken) last ∧ last.next.1 = script.eof
  ends : script.eof.kind = .eof

theorem marks_ofText (source : String) : (ofText source).Marks 0 (.ofText source) := by
  obtain ⟨tokens, last, hyields, heof⟩ := (Cursor.ofText source).exists_yields
  rw [ofText_eq_of_yields hyields heof]
  exact ⟨⟨last, hyields, rfl⟩, heof⟩

namespace Marks

/-- The token of the index is read next, and it is the end token only when there is no
token of that index. -/
theorem next_cases (h : self.Marks taken cursor) :
    (∃ token, self.tokens[taken]? = some token ∧ cursor.next.1 = token ∧ token.kind ≠ .eof) ∨
      self.tokens[taken]? = none ∧ cursor.next.1 = self.eof := by
  obtain ⟨last, hyields, heof⟩ := h.ahead
  rw [← List.head?_drop]
  generalize self.tokens.drop taken = tokens at hyields
  cases hyields with
  | nil => exact .inr ⟨rfl, heof⟩
  | cons hnext hkind _ => exact .inl ⟨_, rfl, by rw [hnext], hkind⟩

theorem next_snd (h : self.Marks taken cursor) : self.Marks (taken + 1) cursor.next.2 := by
  obtain ⟨last, hyields, heof⟩ := h.ahead
  refine ⟨?_, h.ends⟩
  rw [← List.tail_drop]
  generalize self.tokens.drop taken = tokens at hyields
  cases hyields with
  | nil =>
    have hkind : cursor.next.1.kind = .eof := by rw [heof, h.ends]
    exact ⟨cursor.next.2, .nil _, by rw [Cursor.next_next_of_eof hkind, heof]⟩
  | cons hnext _ htail =>
    rw [hnext]
    exact ⟨last, htail, heof⟩

/-- A call answers by the index, and moves the cursor if it moves the index. -/
theorem call (h : self.Marks taken cursor) (call : Call) :
    (cursor.call call).1 = self.answer taken call ∧
      self.Marks (taken + call.takes.toNat) (cursor.call call).2 := by
  have hnext : some cursor.next.1 = some (self.tokens[taken]?.getD self.eof) := by
    rcases h.next_cases with ⟨token, htoken, hfirst, _⟩ | ⟨hnone, hfirst⟩
    · rw [htoken, hfirst, Option.getD_some]
    · rw [hnone, hfirst, Option.getD_none]
  cases call with
  | next => exact ⟨hnext, h.next_snd⟩
  | peek => exact ⟨hnext, h⟩
  | next? =>
    refine ⟨?_, h.next_snd⟩
    change (if cursor.next.1.kind = .eof then none else some cursor.next.1) = self.tokens[taken]?
    rcases h.next_cases with ⟨token, htoken, hfirst, hkind⟩ | ⟨hnone, hfirst⟩
    · rw [htoken, hfirst, if_neg hkind]
    · rw [hnone, hfirst, if_pos h.ends]

theorem answers_eq (h : self.Marks taken cursor) (calls : List Call) :
    cursor.answers calls = self.answers taken calls := by
  induction calls generalizing taken cursor with
  | nil => rfl
  | cons call calls ih =>
    obtain ⟨hanswer, hmarks⟩ := h.call call
    rw [Cursor.answers, answers, hanswer, ih hmarks]

end Marks

theorem answers_length (calls : List Call) : (self.answers taken calls).length = calls.length := by
  induction calls generalizing taken with
  | nil => rfl
  | cons call calls ih => rw [answers, List.length_cons, List.length_cons, ih]

theorem answers_append (front back : List Call) :
    self.answers taken (front ++ back) =
      self.answers taken front ++ self.answers (taken + front.countP Call.takes) back := by
  induction front generalizing taken with
  | nil => rfl
  | cons call front ih =>
    have htakes : call.takes.toNat = if call.takes then 1 else 0 := by cases call <;> rfl
    have hcount : taken + call.takes.toNat + front.countP Call.takes =
        taken + (call :: front).countP Call.takes := by
      rw [List.countP_cons, htakes]
      omega
    rw [List.cons_append, answers, answers, ih, hcount, List.cons_append]

/-- Past the last token there is nothing but the end. -/
theorem answers_of_length_le (h : self.tokens.length ≤ taken) (calls : List Call) :
    self.answers taken calls =
      calls.map fun call => if call = .next? then none else some self.eof := by
  induction calls generalizing taken with
  | nil => rfl
  | cons call calls ih =>
    have hnone : self.tokens[taken]? = none := List.getElem?_eq_none h
    have hanswer : self.answer taken call = if call = .next? then none else some self.eof := by
      cases call <;> simp [answer, hnone]
    rw [answers, ih (by omega), hanswer, List.map_cons]

end Script

/-- A cursor is a list of tokens with an index. Whatever is asked of it, every call is
answered by the token whose index is the number of calls before it that took a
token, or by the end token if there is none, which `next?` leaves out. So a peek more
or less changes no other answer, and behind the last token every call is answered by
the same end token. -/
theorem Cursor.answers_ofText (source : String) :
    (∀ front call back,
      ((ofText source).answers (front ++ call :: back))[front.length]? =
        some ((Script.ofText source).answer (front.countP Call.takes) call)) ∧
    (∀ front back, ∃ shown later,
      (ofText source).answers (front ++ back) = (ofText source).answers front ++ later ∧
      (ofText source).answers (front ++ .peek :: back) =
        (ofText source).answers front ++ shown :: later) ∧
    (∀ front back, (Script.ofText source).tokens.length ≤ front.countP Call.takes →
      (ofText source).answers (front ++ back) = (ofText source).answers front ++
        back.map fun call => if call = .next? then none else some (Script.ofText source).eof) ∧
    ∀ calls, ((ofText source).answers calls).length = calls.length := by
  have hanswers := (Script.marks_ofText source).answers_eq
  simp only [hanswers, Script.answers_append, Nat.zero_add]
  refine ⟨fun front call back => ?_, fun front back => ?_, fun front back hend => ?_,
    Script.answers_length⟩
  · rw [List.getElem?_append_right (by rw [Script.answers_length]), Script.answers_length,
      Nat.sub_self]
    rfl
  · exact ⟨_, _, rfl, rfl⟩
  · rw [Script.answers_of_length_le hend]

/-- A marker that is skipped, a peek in front of it and one behind the last token. -/
theorem Cursor.answers_ofText_past_end :
    (Script.ofText "x@ y").tokens.length ≤ [Call.next, .peek, .next?].countP Call.takes ∧
      (ofText "x@ y").answers ([.next, .peek, .next?] ++ [.next?, .peek, .next]) =
        [some ⟨.identifier, "x", ⟨1, 1⟩⟩, some ⟨.identifier, "y", ⟨1, 4⟩⟩,
          some ⟨.identifier, "y", ⟨1, 4⟩⟩, none, some ⟨.eof, "", ⟨1, 5⟩⟩,
          some ⟨.eof, "", ⟨1, 5⟩⟩] := by
  have hend : (Script.ofText "x@ y").tokens.length ≤
      [Call.next, .peek, .next?].countP Call.takes := by
    cbv
  have heof : (Script.ofText "x@ y").eof = ⟨.eof, "", ⟨1, 5⟩⟩ := by cbv
  refine ⟨hend, ?_⟩
  rw [(answers_ofText "x@ y").2.2.1 _ [.next?, .peek, .next] hend, heof]
  cbv

end SchemaScript
