import Mathlib
import SchemaScript.Proofs.Jobs

namespace SchemaScript

/-- The types that are shown as `raw`. -/
def DataType.shownRaw : List DataType := [.raw, .named "raw"]

namespace Event

/-- The events are the same, but that a raw type and a type of the name `raw` may stand
for each other. -/
inductive Alike : Event → Event → Prop where
  | same (event : Event) : Alike event event
  | raw {table column : String} {type other : DataType} (htype : type ∈ DataType.shownRaw)
      (hother : other ∈ DataType.shownRaw) :
      Alike (.columnParsed table column type) (.columnParsed table column other)

/-- The names in the event are those of settings, tables and columns. -/
def Plain : Event → Prop
  | .configured key _ => key ∈ Configuration.keys
  | .columnParsed table column _ => isName table ∧ isName column
  | .tableParsed name _ _ => isName name
  | .statementGenerated _ | .compiling _ _ | .wrote _ _ => True

end Event

section Cuts

variable {c : Char} {xs xs' ys ys' : List Char}

/-- Where a text is cut at the first of some character, there is one way to cut it. -/
theorem cut_inj (hxs : c ∉ xs) (hxs' : c ∉ xs') (h : xs ++ c :: ys = xs' ++ c :: ys') :
    xs = xs' ∧ ys = ys' := by
  induction xs generalizing xs' with
  | nil =>
    cases xs' with
    | nil => simpa using h
    | cons x xs' =>
      obtain ⟨rfl, _⟩ := List.cons.inj h
      simp at hxs'
  | cons x xs ih =>
    cases xs' with
    | nil =>
      obtain ⟨rfl, _⟩ := List.cons.inj h
      simp at hxs
    | cons x' xs' =>
      obtain ⟨rfl, hrest⟩ := List.cons.inj h
      rw [List.mem_cons, not_or] at hxs hxs'
      obtain ⟨rfl, hys⟩ := ih hxs.2 hxs'.2 hrest
      exact ⟨rfl, hys⟩

theorem cut_last_inj (hys : c ∉ ys) (hys' : c ∉ ys') (h : xs ++ c :: ys = xs' ++ c :: ys') :
    xs = xs' ∧ ys = ys' := by
  have hreverse : ys.reverse ++ c :: xs.reverse = ys'.reverse ++ c :: xs'.reverse := by
    simpa using congrArg List.reverse h
  obtain ⟨hys, hxs⟩ := cut_inj (by simpa using hys) (by simpa using hys') hreverse
  exact ⟨List.reverse_inj.mp hxs, List.reverse_inj.mp hys⟩

theorem not_mem_toDigits (h : c.isDigit = false) (n : Nat) : c ∉ Nat.toDigits 10 n := by
  intro hmem
  rw [Nat.isDigit_of_mem_toDigits (by decide) (by decide) hmem] at h
  cases h

theorem eq_of_toDigits_eq {n m : Nat} (h : Nat.toDigits 10 n = Nat.toDigits 10 m) : n = m := by
  have hvalue := congrArg (Nat.ofDigitChars 10 · 0) h
  simpa only [Nat.ofDigitChars_ten_toDigits] using hvalue

theorem not_mem_of_isName {name : String} (h : isName name) (hc : continuesWord c = false) :
    c ∉ name.toList :=
  not_mem_of_isWord (isWord_of_isName h) hc

end Cuts

theorem DataType.text_eq_iff {self other : DataType} :
    self.text = other.text ↔ self = other ∨ self ∈ shownRaw ∧ other ∈ shownRaw := by
  cases self with
  | named name =>
    cases other with
    | named name' =>
      simp only [text, shownRaw, named.injEq, List.mem_cons, reduceCtorEq, List.not_mem_nil,
        or_false, false_or]
      constructor
      · exact .inl
      · rintro (rfl | ⟨rfl, rfl⟩) <;> rfl
    | raw => simp [text, shownRaw]
  | raw =>
    cases other with
    | named name => simp [text, shownRaw, eq_comm]
    | raw => simp

namespace Event

section Parts

variable {key value key' value' table column table' column' path path' : String}
variable {type type' : DataType} {columns references columns' references' bytes bytes' : Nat}

private theorem configured_alike (hkey : key ∈ Configuration.keys)
    (hkey' : key' ∈ Configuration.keys)
    (h : message (.configured key value) = message (.configured key' value')) :
    Alike (.configured key value) (.configured key' value') := by
  unfold message at h
  have hchars : key.toList ++ ' ' :: ("= " ++ value).toList =
      key'.toList ++ ' ' :: ("= " ++ value').toList := by
    simpa using congrArg String.toList h
  have hblank : ∀ key ∈ Configuration.keys, ' ' ∉ key.toList := by decide
  obtain ⟨hkeys, hvalues⟩ := cut_inj (hblank _ hkey) (hblank _ hkey') hchars
  obtain rfl := String.toList_inj.mp hkeys
  obtain rfl := (String.append_right_inj _).mp (String.toList_inj.mp hvalues)
  exact .same _

private theorem columnParsed_alike (htable : isName table) (hcolumn : isName column)
    (htable' : isName table') (hcolumn' : isName column')
    (h : message (.columnParsed table column type) = message (.columnParsed table' column' type')) :
    Alike (.columnParsed table column type) (.columnParsed table' column' type') := by
  unfold message at h
  have hchars :
      table.toList ++ '.' :: (column.toList ++ '\x27' :: (" of type " ++ type.text).toList) =
      table'.toList ++ '.' :: (column'.toList ++ '\x27' :: (" of type " ++ type'.text).toList) := by
    simpa using congrArg String.toList h
  obtain ⟨htables, hchars⟩ := cut_inj (not_mem_of_isName htable (by decide))
    (not_mem_of_isName htable' (by decide)) hchars
  obtain ⟨hcolumns, htypes⟩ := cut_inj (not_mem_of_isName hcolumn (by decide))
    (not_mem_of_isName hcolumn' (by decide)) hchars
  obtain rfl := String.toList_inj.mp htables
  obtain rfl := String.toList_inj.mp hcolumns
  have htext := (String.append_right_inj _).mp (String.toList_inj.mp htypes)
  rcases DataType.text_eq_iff.mp htext with rfl | ⟨htype, htype'⟩
  · exact .same _
  · exact .raw htype htype'

private theorem tableParsed_alike (htable : isName table) (htable' : isName table')
    (h : message (.tableParsed table columns references) =
      message (.tableParsed table' columns' references')) :
    Alike (.tableParsed table columns references) (.tableParsed table' columns' references') := by
  unfold message at h
  have hchars : table.toList ++ '\x27' :: (" (".toList ++ (Nat.toDigits 10 columns ++ ' ' ::
        ("columns, ".toList ++ (Nat.toDigits 10 references ++ ' ' :: "references)".toList)))) =
      table'.toList ++ '\x27' :: (" (".toList ++ (Nat.toDigits 10 columns' ++ ' ' ::
        ("columns, ".toList ++ (Nat.toDigits 10 references' ++ ' ' :: "references)".toList)))) := by
    simpa using congrArg String.toList h
  obtain ⟨htables, hchars⟩ := cut_inj (not_mem_of_isName htable (by decide))
    (not_mem_of_isName htable' (by decide)) hchars
  obtain ⟨hcolumns, hchars⟩ := cut_inj (not_mem_toDigits (by decide) columns)
    (not_mem_toDigits (by decide) columns') (List.append_cancel_left hchars)
  obtain ⟨hreferences, _⟩ := cut_inj (not_mem_toDigits (by decide) references)
    (not_mem_toDigits (by decide) references') (List.append_cancel_left hchars)
  obtain rfl := String.toList_inj.mp htables
  obtain rfl := eq_of_toDigits_eq hcolumns
  obtain rfl := eq_of_toDigits_eq hreferences
  exact .same _

private theorem statementGenerated_alike
    (h : message (.statementGenerated table) = message (.statementGenerated table')) :
    Alike (.statementGenerated table) (.statementGenerated table') := by
  obtain rfl := (String.append_right_inj _).mp ((String.append_left_inj _).mp h)
  exact .same _

/-- A path can hold anything, also what looks like a number of bytes, so it is cut off from
the right. -/
private theorem compiling_alike
    (h : message (.compiling path bytes) = message (.compiling path' bytes')) :
    Alike (.compiling path bytes) (.compiling path' bytes') := by
  unfold message at h
  have hchars : (path ++ " ").toList ++ '(' :: (Nat.toDigits 10 bytes ++ " bytes)".toList) =
      (path' ++ " ").toList ++ '(' :: (Nat.toDigits 10 bytes' ++ " bytes)".toList) := by
    simpa using congrArg String.toList h
  have hopen (n : Nat) : '(' ∉ Nat.toDigits 10 n ++ " bytes)".toList := by
    rw [List.mem_append, not_or]
    exact ⟨not_mem_toDigits (by decide) n, by decide⟩
  obtain ⟨hpaths, hbytes⟩ := cut_last_inj (hopen bytes) (hopen bytes') hchars
  obtain rfl := (String.append_left_inj _).mp (String.toList_inj.mp hpaths)
  obtain rfl := eq_of_toDigits_eq (List.append_cancel_right hbytes)
  exact .same _

private theorem wrote_alike
    (h : message (.wrote bytes path) = message (.wrote bytes' path')) :
    Alike (.wrote bytes path) (.wrote bytes' path') := by
  unfold message at h
  have hchars : Nat.toDigits 10 bytes ++ ' ' :: ("bytes to " ++ path).toList =
      Nat.toDigits 10 bytes' ++ ' ' :: ("bytes to " ++ path').toList := by
    simpa using congrArg String.toList h
  obtain ⟨hbytes, hpaths⟩ := cut_inj (not_mem_toDigits (by decide) bytes)
    (not_mem_toDigits (by decide) bytes') hchars
  obtain rfl := eq_of_toDigits_eq hbytes
  obtain rfl := (String.append_right_inj _).mp (String.toList_inj.mp hpaths)
  exact .same _

end Parts

variable {self other : Event} {log log' : List Event}

/-- The first letters of a message tell what kind of event it is about. -/
theorem alike_of_message_eq (h : self.Plain) (hother : other.Plain)
    (hmessage : self.message = other.message) : self.Alike other := by
  have hchars := congrArg String.toList hmessage
  cases self with
  | configured =>
    cases other with
    | configured => exact configured_alike h hother hmessage
    | _ => unfold message at hchars; simp at hchars
  | columnParsed =>
    cases other with
    | columnParsed => exact columnParsed_alike h.1 h.2 hother.1 hother.2 hmessage
    | _ => unfold message at hchars; simp at hchars
  | tableParsed =>
    cases other with
    | tableParsed => exact tableParsed_alike h hother hmessage
    | _ => unfold message at hchars; simp at hchars
  | statementGenerated =>
    cases other with
    | statementGenerated => exact statementGenerated_alike hmessage
    | _ => unfold message at hchars; simp at hchars
  | compiling =>
    cases other with
    | compiling => exact compiling_alike hmessage
    | _ => unfold message at hchars; simp at hchars
  | wrote =>
    cases other with
    | wrote => exact wrote_alike hmessage
    | _ => unfold message at hchars; simp at hchars

theorem Alike.message_eq (h : self.Alike other) : self.message = other.message := by
  cases h with
  | same => rfl
  | @raw table column type other htype hother =>
    have htext : type.text = other.text := DataType.text_eq_iff.mpr (.inr ⟨htype, hother⟩)
    exact congrArg ("Parsed column '" ++ table ++ "." ++ column ++ "' of type " ++ ·) htext

theorem messages_eq_iff (h : ∀ event ∈ log, event.Plain) (h' : ∀ event ∈ log', event.Plain) :
    log.map message = log'.map message ↔ List.Forall₂ Alike log log' := by
  constructor
  · intro hmessages
    rw [← List.forall₂_eq_eq_eq, List.forall₂_map_left_iff, List.forall₂_map_right_iff] at hmessages
    refine (forall₂_and_mem hmessages).imp fun event other hpair => ?_
    exact alike_of_message_eq (h event hpair.2.1) (h' other hpair.2.2) hpair.1
  · exact fun halike => map_eq_map_of_forall₂ halike fun _ _ h => h.message_eq

end Event

namespace Draft

variable {schema : Schema} {log : List Event} {phase : Phase} {token : Token}
variable {tokens : List Token} {next : Draft}

theorem Move.log_plain (hmove : Move schema log token phase next) (hphase : phase.WellFormed schema)
    (h : ∀ event ∈ log, event.Plain) : ∀ event ∈ next.log, event.Plain := by
  induction hmove with
  | closeSetting =>
    exact List.forall_mem_append.mpr ⟨h, List.forall_mem_singleton.mpr hphase.1⟩
  | closeTable =>
    exact List.forall_mem_append.mpr ⟨h, List.forall_mem_singleton.mpr hphase.table.name⟩
  | @closeColumn table column =>
    have hcolumn : column ∈ (table.addColumn column).columns := by simp [Table.addColumn]
    have hnames : isName table.name ∧ isName column.name :=
      ⟨hphase.table.name, (hphase.table.columns column hcolumn).name⟩
    exact List.forall_mem_append.mpr ⟨h, List.forall_mem_singleton.mpr hnames⟩
  | closeClause _ hattach _ ih => exact ih (hphase.attach hattach)
  | _ => exact h

theorem Reads.log_plain (hreads : Reads .initial tokens next)
    (hspelled : ∀ token ∈ tokens, token.Spelled) : ∀ event ∈ next.log, event.Plain := by
  have hkept := hreads.keeps
    (motive := fun _ draft => draft.WellFormed ∧ ∀ event ∈ draft.log, event.Plain)
    (fun hmem hdraft hmove =>
      ⟨hmove.wellFormed (hspelled _ hmem) hdraft.1.schema hdraft.1.phase,
        hmove.log_plain hdraft.1.phase hdraft.2⟩)
    [] ⟨initial_wellFormed, List.forall_mem_nil _⟩
  exact hkept.2

end Draft

theorem Schema.parse_log_plain (source : String) :
    ∀ event ∈ (parse source).log, event.Plain := by
  have hspelled := Script.ofText_toList_spelled source
  rcases Draft.initial.run_cases (Script.ofText source).toList with ⟨next, hreads, hrun⟩ |
    ⟨before, token, after, draft, error, htokens, hreads, _, hrun⟩
  · have hlog : (parse source).log = next.log := congrArg Report.log hrun
    exact hlog ▸ hreads.log_plain hspelled
  · have hlog : (parse source).log = draft.log := congrArg Report.log hrun
    refine hlog ▸ hreads.log_plain fun token hmem => hspelled token ?_
    exact htokens ▸ List.mem_append_left _ hmem

theorem compile_log_plain (source : String) : ∀ event ∈ (compile source).log, event.Plain := by
  have hparsed := Schema.parse_log_plain source
  cases hparse : (Schema.parse source).outcome with
  | error error => exact compile_log_of_error hparse ▸ hparsed
  | ok schema =>
    obtain ⟨generated, _, _, hlog⟩ := schema.generate_log
    rw [compile_log_of_ok hparse, hlog, List.forall_mem_append, List.forall_mem_map]
    exact ⟨hparsed, fun _ _ => trivial⟩

/-- The messages about a compilation tell all that its log tells, but whether a type is
raw or is named `raw`. -/
theorem compile_messages_eq_iff (source other : String) :
    (compile source).log.map Event.message = (compile other).log.map Event.message ↔
      List.Forall₂ Event.Alike (compile source).log (compile other).log :=
  Event.messages_eq_iff (compile_log_plain source) (compile_log_plain other)

namespace Options

variable (self : Options)

theorem prepare_log_plain (entry : Option Entry) :
    ∀ event ∈ (self.prepare entry).log, event.Plain := by
  match entry with
  | none | some .directory => simp [prepare]
  | some (.file content) =>
    by_cases htext : ∃ source : String, content = source.toUTF8
    · obtain ⟨source, rfl⟩ := htext
      rw [prepare, compile_toUTF8]
      exact List.forall_mem_cons.mpr ⟨trivial, compile_log_plain source⟩
    · rw [prepare, compile_of_not_text (not_exists.mp htext)]
      exact List.forall_mem_nil _

theorem run_log_plain (tree : FileTree) : ∀ event ∈ (self.run tree).2.log, event.Plain := by
  have hprepared := self.prepare_log_plain (tree.find? self.input)
  rcases hprepare : self.prepare (tree.find? self.input) with ⟨log, outcome⟩
  rw [hprepare] at hprepared
  cases outcome with
  | error error =>
    rw [run_of_prepare_error hprepare]
    exact hprepared
  | ok sql =>
    rw [run_of_prepare_ok hprepare]
    cases tree.write? self.output sql.toUTF8 with
    | none => exact hprepared
    | some next =>
      exact List.forall_mem_append.mpr ⟨hprepared, List.forall_mem_singleton.mpr trivial⟩

/-- The messages about a job tell all that its log tells, also when they hold paths that
look like parts of messages. -/
theorem run_messages_eq_iff (other : Options) (tree tree' : FileTree) :
    (self.run tree).2.log.map Event.message = (other.run tree').2.log.map Event.message ↔
      List.Forall₂ Event.Alike (self.run tree).2.log (other.run tree').2.log :=
  Event.messages_eq_iff (self.run_log_plain tree) (other.run_log_plain tree')

end Options

end SchemaScript
