import Mathlib
import SchemaScript.Proofs.Invariant

namespace SchemaScript

/-- With distinct keys a search finds all that there is to find. -/
theorem filter_eq_toList_find? {α κ : Type} [DecidableEq κ] {key : α → κ} {list : List α}
    (h : (list.map key).Nodup) (wanted : κ) :
    list.filter (key · == wanted) = (list.find? (key · == wanted)).toList := by
  induction list with
  | nil => rfl
  | cons first rest ih =>
    rw [List.map_cons, List.nodup_cons] at h
    by_cases hkey : key first = wanted
    · have hrest : rest.filter (key · == wanted) = [] := by
        rw [List.filter_eq_nil_iff]
        intro other hother hfound
        have hsame : key other = key first := (eq_of_beq hfound).trans hkey.symm
        exact h.1 (hsame ▸ List.mem_map_of_mem hother)
      simp [hkey, hrest]
    · simp [hkey, ih h.2]

/-- One of the letters from A to Z, in either case. -/
def Letter (c : Char) : Prop := 'A' ≤ c ∧ c ≤ 'Z' ∨ 'a' ≤ c ∧ c ≤ 'z'

/-- A letter or an underscore, then letters, digits and underscores. The three keywords
of the language are no identifiers. -/
structure Identifier (text : String) : Prop where
  shape : ∃ first rest, text.toList = first :: rest ∧ (Letter first ∨ first = '_') ∧
    ∀ c ∈ rest, Letter c ∨ ('0' ≤ c ∧ c ≤ '9') ∨ c = '_'
  keyword : text ≠ "table" ∧ text ≠ "end" ∧ text ≠ "set"

theorem letter_iff_isAlpha {c : Char} : Letter c ↔ c.isAlpha := by
  simp [Letter, Char.isAlpha, Char.isUpper, Char.isLower, Char.le_def]

theorem isDigit_iff {c : Char} : c.isDigit ↔ '0' ≤ c ∧ c ≤ '9' := by
  simp [Char.isDigit, Char.le_def]

theorem Identifier.of_isName {text : String} (h : isName text) : Identifier text where
  shape := by
    obtain ⟨first, rest, htext, hfirst, hrest⟩ := exists_of_isWord (isWord_of_isName h)
    refine ⟨first, rest, htext, ?_, fun c hc => ?_⟩
    · simpa [startsWord, letter_iff_isAlpha] using hfirst
    · simpa [continuesWord, Char.isAlphanum, letter_iff_isAlpha, isDigit_iff, or_assoc]
        using hrest c hc
  keyword := by
    simp only [isName, Bool.and_eq_true, bne_iff_ne] at h
    exact ⟨h.1.1.2, h.1.2, h.2⟩

/-- What is asked for by a kind is the only attribute of that kind, and a raw type is
known by its attribute, which is the first one. -/
structure Column.Unambiguous (column : Column) : Prop where
  name : Identifier column.name
  type : ∀ name, column.type = .named name → Identifier name
  kinds : (column.attributes.map Attribute.kind).Nodup
  found : ∀ kind, column.attributes.filter (·.kind == kind) = (column.attribute? kind).toList
  raw : column.type = .raw ↔ ∃ literal, .rawType literal ∈ column.attributes
  first : ∀ literal, .rawType literal ∈ column.attributes →
    column.attributes.head? = some (.rawType literal)

/-- What is asked for by a name is the only column of that name. -/
structure Table.Unambiguous (table : Table) : Prop where
  name : Identifier table.name
  names : (table.columns.map Column.name).Nodup
  found : ∀ name, table.columns.filter (·.name == name) = (table.column? name).toList
  columns : ∀ column ∈ table.columns, column.Unambiguous

/-- What is asked for by a name is the only table of that name. -/
structure Schema.Unambiguous (schema : Schema) : Prop where
  names : (schema.tables.map Table.name).Nodup
  found : ∀ name, schema.tables.filter (·.name == name) = (schema.table? name).toList
  tables : ∀ table ∈ schema.tables, table.Unambiguous

namespace Column

variable {earlier : List Table} {self : Column} {name literal : String}

theorem Typed.isName_of_named (h : self.Typed) (htype : self.type = .named name) : isName name := by
  simp only [Typed, htype] at h
  exact h.1

theorem Typed.type_eq_raw_iff (h : self.Typed) :
    self.type = .raw ↔ ∃ literal, .rawType literal ∈ self.attributes := by
  unfold Typed at h
  cases htype : self.type with
  | named name =>
    rw [htype] at h
    have hplain : ∀ literal, .rawType literal ∉ self.attributes :=
      fun literal hmem => h.2 _ hmem rfl
    simp [hplain]
  | raw =>
    rw [htype] at h
    obtain ⟨literal, rest, hattributes, _⟩ := h
    simp [hattributes]

theorem Typed.head?_eq_rawType (h : self.Typed) (hmem : .rawType literal ∈ self.attributes) :
    self.attributes.head? = some (.rawType literal) := by
  have hraw := h.type_eq_raw_iff.mpr ⟨literal, hmem⟩
  simp only [Typed, hraw] at h
  obtain ⟨other, rest, hattributes, hrest⟩ := h
  rw [hattributes] at hmem ⊢
  rcases List.mem_cons.mp hmem with heq | hmem
  · rw [heq]
    rfl
  · exact absurd rfl (hrest _ hmem)

theorem WellFormed.unambiguous (h : self.WellFormed earlier) : self.Unambiguous where
  name := .of_isName h.name
  type := fun _ htype => .of_isName (h.typed.isName_of_named htype)
  kinds := h.kinds
  found := filter_eq_toList_find? h.kinds
  raw := h.typed.type_eq_raw_iff
  first := fun _ => h.typed.head?_eq_rawType

end Column

theorem Table.WellFormed.unambiguous {earlier : List Table} {table : Table}
    (h : table.WellFormed earlier) : table.Unambiguous where
  name := .of_isName h.name
  names := h.distinct
  found := filter_eq_toList_find? h.distinct
  columns := fun column hmem => (h.columns column hmem).unambiguous

theorem Schema.WellFormed.unambiguous {schema : Schema} (h : schema.WellFormed) :
    schema.Unambiguous where
  names := h.distinct
  found := filter_eq_toList_find? h.distinct
  tables := fun table hmem => by
    obtain ⟨earlier, _, hwell⟩ := h.tables.of_mem hmem
    exact hwell.unambiguous

/-- Nothing in a schema that was read can be mistaken for something else. Names are
identifiers and stand for one table or column each, no attribute is repeated, and
there is a provider and no setting but the known ones. -/
theorem Schema.parse_unambiguous {source : String} {schema : Schema}
    (h : (parse source).outcome = .ok schema) :
    schema.Unambiguous ∧ "provider" ∈ schema.configuration.entries.map Prod.fst ∧
      ∀ key ∈ schema.configuration.entries.map Prod.fst, key = "provider" ∨ key = "url" := by
  have hwell := parse_wellFormed h
  obtain ⟨⟨value, hvalue⟩, hentries⟩ := hwell.configuration
  refine ⟨hwell.unambiguous, List.mem_map_of_mem hvalue, fun key hkey => ?_⟩
  obtain ⟨entry, hentry, rfl⟩ := List.mem_map.mp hkey
  simpa [Configuration.keys] using (hentries entry hentry).1

/-- A column may have the name of a table, and its type may have the name of its
column. -/
theorem Schema.parse_unambiguous_with_shared_names :
    ∃ schema table column,
      (parse "set url x\ntable a\n a a\n b `c` @id\nend").outcome = .ok schema ∧
      schema.table? "a" = some table ∧ schema.tables.filter (·.name == "a") = [table] ∧
      table.column? "b" = some column ∧ table.columns.filter (·.name == "b") = [column] ∧
      column.attributes.filter (·.kind == .primaryKey) = [.primaryKey] := by
  have hparse : (parse "set url x\ntable a\n a a\n b `c` @id\nend").outcome =
      .ok ⟨Configuration.initial.insert "url" "x", [⟨"a", [⟨"a", .named "a", []⟩,
        ⟨"b", .raw, [.rawType "c", .primaryKey]⟩], []⟩]⟩ := by
    cbv
  obtain ⟨hunambiguous, _⟩ := parse_unambiguous hparse
  have htable := hunambiguous.tables _ (.head _)
  have hcolumn := htable.columns _ (.tail _ (.head _))
  exact ⟨_, _, _, hparse, rfl, hunambiguous.found "a", rfl, htable.found "b",
    hcolumn.found .primaryKey⟩

end SchemaScript
