import Mathlib
import SchemaScript.Schema.Clause

namespace SchemaScript

/-- The actions that can be declared. -/
def actionNames : List String := ["CASCADE", "SET NULL", "SET DEFAULT", "RESTRICT", "NO ACTION"]

/-- A clause of the given name with the given arguments declares the attribute. The name
of an action may be written with letters in either case. No clause declares a raw type. -/
inductive Attribute.Declared : String → List Argument → Attribute → Prop where
  | primaryKey : Declared "id" [] .primaryKey
  | autoIncrement : Declared "auto_increment" [] .autoIncrement
  | nullable : Declared "nullable" [] .nullable
  | defaultValue (value : Argument) : Declared "default" [value] (.defaultValue value)
  | reference (target key : String) :
      Declared "reference" [.text target, .text key] (.reference target key)
  | onDelete {action text : String} (haction : action ∈ actionNames)
      (hspelling : action.toList = text.toList.map Char.toUpper) :
      Declared "onDelete" [.text text] (.action .delete action)
  | onUpdate {action text : String} (haction : action ∈ actionNames)
      (hspelling : action.toList = text.toList.map Char.toUpper) :
      Declared "onUpdate" [.text text] (.action .update action)

/-- The arguments that an attribute is declared with, whatever the name of the clause. -/
inductive Attribute.Takes : Attribute → List Argument → Prop where
  | primaryKey : Takes .primaryKey []
  | autoIncrement : Takes .autoIncrement []
  | nullable : Takes .nullable []
  | defaultValue (value : Argument) : Takes (.defaultValue value) [value]
  | reference (target key : String) : Takes (.reference target key) [.text target, .text key]
  | action {occasion : Occasion} {action : Action} {text : String}
      (hspelling : action.name.toList = text.toList.map Char.toUpper) :
      Takes (.action occasion action.name) [.text text]

/-- A reference finds its target among the tables that are complete. -/
def Attribute.Resolves (schema : Schema) : Attribute → Prop
  | .reference target key =>
    ∃ found, schema.table? target = some found ∧ (found.column? key).isSome
  | _ => True

/-- What an attribute of the column `source` changes in the references of the
table. An action needs a reference to change. -/
def Table.record? (self : Table) (source : String) : Attribute → Option Table
  | .reference target key => some (self.addReference ⟨source, target, key, none, none⟩)
  | .action occasion name => self.setAction? source occasion (some name)
  | _ => some self

theorem Action.ofName?_eq_some_iff {text : String} {action : Action} :
    ofName? text = some action ↔ action.name.toList = text.toList.map Char.toUpper := by
  constructor
  · intro h
    simpa using List.find?_some h
  · intro h
    unfold ofName?
    rw [← h]
    cases action <;> decide

theorem Action.mem_actionNames_iff {name : String} :
    name ∈ actionNames ↔ ∃ action : Action, action.name = name := by
  constructor
  · intro h
    simp only [actionNames, List.mem_cons, List.not_mem_nil, or_false] at h
    rcases h with rfl | rfl | rfl | rfl | rfl
    · exact ⟨.cascade, rfl⟩
    · exact ⟨.setNull, rfl⟩
    · exact ⟨.setDefault, rfl⟩
    · exact ⟨.restrict, rfl⟩
    · exact ⟨.noAction, rfl⟩
  · rintro ⟨action, rfl⟩
    cases action <;> decide

namespace Attribute

variable {name : String} {arguments : List Argument} {added : Attribute}

namespace Kind

theorem ofName?_eq_some_iff {kind : Kind} :
    ofName? name = some kind ↔ kind.name = name ∧ kind ≠ .rawType := by
  constructor
  · intro h
    refine ⟨by simpa using List.find?_some h, ?_⟩
    rintro rfl
    have hmem := List.mem_of_find?_eq_some h
    simp [declarable] at hmem
  · rintro ⟨rfl, hkind⟩
    match kind, hkind with
    | .primaryKey, _ | .autoIncrement, _ | .nullable, _ | .defaultValue, _ | .reference, _ => decide
    | .action .delete, _ | .action .update, _ => decide

/-- Kinds that clauses can name have names of their own. -/
theorem eq_of_name_eq {kind other : Kind} (hname : kind.name = other.name)
    (hkind : kind ≠ .rawType) (hother : other ≠ .rawType) : kind = other :=
  Option.some.inj ((ofName?_eq_some_iff.mpr ⟨hname, hkind⟩).symm.trans
    (ofName?_eq_some_iff.mpr ⟨rfl, hother⟩))

end Kind

theorem eq_action_of_kind_eq {occasion : Occasion} (h : added.kind = .action occasion) :
    ∃ action, added = .action occasion action := by
  cases added with
  | action other action =>
    cases h
    exact ⟨action, rfl⟩
  | _ => cases h

namespace Declared

theorem name_eq (h : Declared name arguments added) : added.kind.name = name := by
  cases h <;> rfl

theorem takes (h : Declared name arguments added) : added.Takes arguments := by
  cases h with
  | primaryKey | autoIncrement | nullable => constructor
  | defaultValue value => exact .defaultValue value
  | reference target key => exact .reference target key
  | onDelete haction hspelling | onUpdate haction hspelling =>
    obtain ⟨action, rfl⟩ := Action.mem_actionNames_iff.mp haction
    exact .action hspelling

theorem of_takes (h : added.Takes arguments) : Declared added.kind.name arguments added := by
  cases h with
  | primaryKey => exact .primaryKey
  | autoIncrement => exact .autoIncrement
  | nullable => exact .nullable
  | defaultValue value => exact .defaultValue value
  | reference target key => exact .reference target key
  | @action occasion action text hspelling =>
    have haction : action.name ∈ actionNames := Action.mem_actionNames_iff.mpr ⟨action, rfl⟩
    cases occasion with
    | delete => exact .onDelete haction hspelling
    | update => exact .onUpdate haction hspelling

end Declared

theorem Takes.kind_ne_rawType (h : added.Takes arguments) : added.kind ≠ .rawType := by
  cases h <;> simp [kind]

theorem Declared.ofName?_eq (h : Declared name arguments added) :
    Kind.ofName? name = some added.kind :=
  Kind.ofName?_eq_some_iff.mpr ⟨h.name_eq, h.takes.kind_ne_rawType⟩

/-- A clause declares at most one attribute. -/
theorem Declared.unique {other : Attribute} (h : Declared name arguments added)
    (hother : Declared name arguments other) : added = other := by
  have hkind : added.kind = other.kind :=
    Option.some.inj (h.ofName?_eq.symm.trans hother.ofName?_eq)
  have hother := hother.takes
  cases h.takes with
  | primaryKey | autoIncrement | nullable =>
    cases hother <;> cases hkind
    rfl
  | defaultValue =>
    cases hother with
    | defaultValue => rfl
    | action => cases hkind
  | reference => cases hother; rfl
  | action hspelling =>
    cases hother with
    | defaultValue => cases hkind
    | action hspelling' =>
      cases hkind
      rw [String.toList_inj.mp (hspelling.trans hspelling'.symm)]

end Attribute

namespace Clause

variable {schema : Schema} {table changed : Table} {column : Column} {arguments : List Argument}
variable {added : Attribute}

private theorem reference_eq_ok_iff :
    reference schema table column arguments = .ok (changed, added) ↔
      ∃ target key, arguments = [.text target, .text key] ∧ added = .reference target key ∧
        added.Resolves schema ∧ table.record? column.name added = some changed := by
  constructor
  · intro h
    unfold reference at h
    split at h
    next target key =>
      split at h
      next => cases h
      next found hfound =>
        split at h
        next => cases h
        next hkey =>
          cases h
          have hsome : (found.column? key).isSome := by simpa [Option.isSome_iff_ne_none] using hkey
          exact ⟨target, key, rfl, rfl, ⟨found, hfound, hsome⟩, rfl⟩
    next => cases h
    next => cases h
  · rintro ⟨target, key, rfl, rfl, ⟨found, hfound, hkey⟩, hchanged⟩
    have hnone : (found.column? key).isNone = false := by simpa using hkey
    simp only [Table.record?, Option.some.injEq] at hchanged
    simp [reference, hfound, hnone, hchanged]

private theorem action_eq_ok_iff {occasion : Occasion} :
    action occasion table column arguments = .ok (changed, added) ↔
      ∃ text found, arguments = [.text text] ∧ Action.ofName? text = some found ∧
        added = .action occasion found.name ∧ table.record? column.name added = some changed := by
  constructor
  · intro h
    unfold action at h
    split at h
    next text =>
      split at h
      next => cases h
      next found hfound =>
        split at h
        next => cases h
        next hchanged =>
          cases h
          exact ⟨text, found, rfl, hfound, rfl, hchanged⟩
    next => cases h
    next => cases h
  · rintro ⟨text, found, rfl, hfound, rfl, hchanged⟩
    simp only [Table.record?] at hchanged
    simp [action, hfound, hchanged]

private theorem resolve_eq_ok_iff {kind : Attribute.Kind} :
    resolve schema table column arguments kind = .ok (changed, added) ↔
      added.kind = kind ∧ added.Takes arguments ∧
        added.Resolves schema ∧ table.record? column.name added = some changed := by
  cases kind with
  | primaryKey | autoIncrement | nullable =>
    simp only [resolve]
    constructor
    · intro h
      split at h
      next hnone =>
        cases h
        rw [List.isEmpty_iff.mp hnone]
        exact ⟨rfl, by constructor, trivial, rfl⟩
      next => cases h
    · rintro ⟨hkind, htakes, _, hchanged⟩
      cases htakes <;> cases hkind
      cases hchanged
      rfl
  | defaultValue =>
    simp only [resolve]
    constructor
    · intro h
      split at h
      next value =>
        cases h
        exact ⟨rfl, .defaultValue value, trivial, rfl⟩
      next => cases h
    · rintro ⟨hkind, htakes, _, hchanged⟩
      cases htakes <;> cases hkind
      cases hchanged
      rfl
  | reference =>
    simp only [resolve, reference_eq_ok_iff]
    constructor
    · rintro ⟨target, key, rfl, rfl, hresolves, hchanged⟩
      exact ⟨rfl, .reference target key, hresolves, hchanged⟩
    · rintro ⟨hkind, htakes, hresolves, hchanged⟩
      cases htakes <;> cases hkind
      exact ⟨_, _, rfl, rfl, hresolves, hchanged⟩
  | action occasion =>
    simp only [resolve, action_eq_ok_iff, Action.ofName?_eq_some_iff]
    constructor
    · rintro ⟨text, found, rfl, hspelling, rfl, hchanged⟩
      exact ⟨rfl, .action hspelling, trivial, hchanged⟩
    · rintro ⟨hkind, htakes, _, hchanged⟩
      cases htakes with
      | action hspelling =>
        cases hkind
        exact ⟨_, _, rfl, hspelling, rfl, hchanged⟩
      | _ => cases hkind
  | rawType =>
    simp only [resolve]
    constructor
    · intro h
      cases h
    · rintro ⟨hkind, htakes, _⟩
      exact absurd hkind htakes.kind_ne_rawType

/-- A clause is attached exactly when it declares an attribute of a kind that the
column does not have yet, the target of a reference is found, and an action
has a reference to change. -/
theorem attach_eq_ok_iff {self : Clause} :
    self.attach schema = .ok (changed, column) ↔
      ∃ added, Attribute.Declared self.name.literal self.arguments added ∧
        self.column.has added.kind = false ∧ added.Resolves schema ∧
        self.table.record? self.column.name added = some changed ∧
        column = self.column.addAttribute added := by
  constructor
  · intro h
    unfold attach at h
    split at h
    next => cases h
    next kind hkind =>
      obtain ⟨hname, _⟩ := Attribute.Kind.ofName?_eq_some_iff.mp hkind
      split at h
      next => cases h
      next hnew =>
        split at h
        next changed added hresolve =>
          cases h
          obtain ⟨rfl, htakes, hresolves, hchanged⟩ := resolve_eq_ok_iff.mp hresolve
          exact ⟨added, hname ▸ .of_takes htakes, by simpa using hnew, hresolves, hchanged, rfl⟩
        next => cases h
  · rintro ⟨added, hdeclared, hnew, hresolves, hchanged, rfl⟩
    have hresolve := resolve_eq_ok_iff.mpr ⟨rfl, hdeclared.takes, hresolves, hchanged⟩
    simp [attach, hdeclared.ofName?_eq, hnew, hresolve]

end Clause

end SchemaScript
