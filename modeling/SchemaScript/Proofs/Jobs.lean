import Mathlib
import SchemaScript.Job
import SchemaScript.Proofs.Files
import SchemaScript.Proofs.Logging

namespace SchemaScript

/-- The bytes that can be read are those that spell a text. -/
theorem fromUTF8?_eq_some_iff {content : ByteArray} {source : String} :
    String.fromUTF8? content = some source ↔ content = source.toUTF8 := by
  unfold String.fromUTF8?
  constructor
  · intro h
    split_ifs at h
    cases h
    rfl
  · rintro rfl
    exact dif_pos source.isValidUTF8

section Log

variable {source path : String} {schema : Schema} {bytes : Nat} {log : List Event}

theorem Table.wrote_not_mem_columnEvents (self : Table) :
    .wrote bytes path ∉ self.columnEvents := by
  simp [columnEvents]

theorem Schema.ToldBy.wrote_not_mem (h : schema.ToldBy log) : .wrote bytes path ∉ log := by
  obtain ⟨passages, rfl, _⟩ := h
  rw [List.mem_flatMap]
  rintro ⟨passage, _, hmem⟩
  cases passage with
  | setting => simp [Passage.events] at hmem
  | table declared => simp [Passage.events, Table.wrote_not_mem_columnEvents] at hmem

theorem ToldUpTo.wrote_not_mem {fault : Position} {tokens : List Token}
    (h : ToldUpTo fault tokens log) : .wrote bytes path ∉ log := by
  obtain ⟨_, _, told, unfinished, _, _, ⟨schema, _, htold⟩, rfl, hunfinished⟩ := h.start
  rw [List.mem_append, not_or]
  refine ⟨htold.wrote_not_mem, ?_⟩
  rcases hunfinished with rfl | ⟨_, table, _, _, rfl⟩
  · exact List.not_mem_nil
  · exact table.wrote_not_mem_columnEvents

/-- Compiling tells of nothing that is written to a file. -/
theorem wrote_not_mem_compile_log (source : String) :
    .wrote bytes path ∉ (compile source).log := by
  cases hparse : (Schema.parse source).outcome with
  | error error =>
    rw [compile_log_of_error hparse]
    exact (Schema.parse_log_of_error hparse).wrote_not_mem
  | ok schema =>
    obtain ⟨generated, _, _, hlog⟩ := schema.generate_log
    rw [compile_log_of_ok hparse, hlog, List.mem_append, not_or]
    exact ⟨(Schema.parse_log_of_ok hparse).wrote_not_mem, by simp⟩

end Log

namespace Options

variable {self : Options} {tree : FileTree} {source sql : String} {error : JobError}

/-- The input is a file with the source text, which compiles to the SQL text. -/
structure Compiles (options : Options) (tree : FileTree) (source sql : String) : Prop where
  input : tree.find? options.input = some (.file source.toUTF8)
  sql : (SchemaScript.compile source).outcome = .ok sql

/-- The first thing that stands in the way of a job. -/
inductive Fault (self : Options) (tree : FileTree) : JobError → Prop where
  | missing (hinput : tree.find? self.input = none) : Fault self tree (.missing self.input)
  | unreadable {entry : Entry} (hinput : tree.find? self.input = some entry)
      (hentry : ∀ source : String, entry ≠ .file source.toUTF8) :
      Fault self tree (.unreadable self.input)
  | compilation {source : String} {error : CompileError}
      (hinput : tree.find? self.input = some (.file source.toUTF8))
      (hcompile : (SchemaScript.compile source).outcome = .error error) :
      Fault self tree (.compilation error)
  | unwritable {source sql : String} (hcompiles : self.Compiles tree source sql)
      (houtput : ¬ tree.Writable self.output) : Fault self tree (.unwritable self.output)

/-- A job that has no fault can be done. -/
theorem exists_fault_or_compiles (self : Options) (tree : FileTree) :
    (∃ error, self.Fault tree error) ∨
      (∃ source sql, self.Compiles tree source sql) ∧ tree.Writable self.output := by
  cases hinput : tree.find? self.input with
  | none => exact .inl ⟨_, .missing hinput⟩
  | some entry =>
    by_cases htext : ∃ source : String, entry = .file source.toUTF8
    · obtain ⟨source, rfl⟩ := htext
      cases hcompile : (SchemaScript.compile source).outcome with
      | error error => exact .inl ⟨_, .compilation hinput hcompile⟩
      | ok sql =>
        by_cases houtput : tree.Writable self.output
        · exact .inr ⟨⟨source, sql, hinput, hcompile⟩, houtput⟩
        · exact .inl ⟨_, .unwritable ⟨hinput, hcompile⟩ houtput⟩
    · exact .inl ⟨_, .unreadable hinput (not_exists.mp htext)⟩

theorem compile_toUTF8 (self : Options) (source : String) :
    self.compile source.toUTF8 =
      ⟨.compiling self.input source.utf8ByteSize :: (SchemaScript.compile source).log,
        (SchemaScript.compile source).outcome.mapError .compilation⟩ := by
  rw [Options.compile, fromUTF8?_eq_some_iff.mpr rfl]
  rfl

theorem compile_of_not_text {content : ByteArray} (h : ∀ source : String, content ≠ source.toUTF8) :
    self.compile content = ⟨[], .error (.unreadable self.input)⟩ := by
  have hnone : String.fromUTF8? content = none := by
    rw [Option.eq_none_iff_forall_ne_some]
    exact fun source hsource => h source (fromUTF8?_eq_some_iff.mp hsource)
  rw [Options.compile, hnone]

theorem run_of_prepare_error {log : List Event}
    (h : self.prepare (tree.find? self.input) = ⟨log, .error error⟩) :
    self.run tree = (tree, ⟨log, .error error⟩) := by
  simp only [run, runIn, FileTree.system, bind_pure_comp, bind_map_left, StateT.run_bind,
    StateT.run_get, pure_bind, h]
  rfl

theorem run_of_prepare_ok {log : List Event}
    (h : self.prepare (tree.find? self.input) = ⟨log, .ok sql⟩) :
    self.run tree =
      match tree.write? self.output sql.toUTF8 with
      | none => (tree, ⟨log, .error (.unwritable self.output)⟩)
      | some next => (next, ⟨log ++ [.wrote sql.utf8ByteSize self.output], .ok ()⟩) := by
  simp only [run, runIn, FileTree.system, bind_pure_comp, bind_assoc, bind_map_left,
    StateT.run_bind, StateT.run_get, pure_bind, h]
  cases tree.write? self.output sql.toUTF8 <;> rfl

/-- What a job tells before it writes. -/
def logOf (self : Options) (source : String) : List Event :=
  .compiling self.input source.utf8ByteSize :: (SchemaScript.compile source).log

theorem wrote_not_mem_logOf {bytes : Nat} {path : String} :
    .wrote bytes path ∉ self.logOf source := by
  simp [logOf, wrote_not_mem_compile_log]

theorem Compiles.prepare_eq (h : self.Compiles tree source sql) :
    self.prepare (tree.find? self.input) = ⟨self.logOf source, .ok sql⟩ := by
  rw [h.input, prepare, compile_toUTF8, h.sql]
  rfl

/-- A job with a fault ends with it, tells of nothing written and leaves the tree as it
is. -/
theorem run_of_fault (h : self.Fault tree error) :
    ∃ log, self.run tree = (tree, ⟨log, .error error⟩) ∧
      ∀ bytes path, .wrote bytes path ∉ log := by
  cases h with
  | missing hinput =>
    refine ⟨[], run_of_prepare_error ?_, by simp⟩
    rw [hinput, prepare]
  | @unreadable entry hinput hentry =>
    refine ⟨[], run_of_prepare_error ?_, by simp⟩
    rw [hinput]
    cases entry with
    | directory => rfl
    | file content =>
      have hcontent : ∀ source : String, content ≠ source.toUTF8 := by
        rintro source rfl
        exact hentry source rfl
      exact compile_of_not_text hcontent
  | @compilation source error hinput hcompile =>
    refine ⟨self.logOf source, run_of_prepare_error ?_, fun _ _ => wrote_not_mem_logOf⟩
    rw [hinput, prepare, compile_toUTF8, hcompile]
    rfl
  | @unwritable source sql hcompiles houtput =>
    refine ⟨self.logOf source, ?_, fun _ _ => wrote_not_mem_logOf⟩
    have hwrite : tree.write? self.output sql.toUTF8 = none := by
      rw [FileTree.write?, Option.map_eq_none_iff, Option.eq_none_iff_forall_ne_some]
      exact fun location htarget => houtput (FileTree.exists_target?_iff.mp ⟨location, htarget⟩)
    rw [run_of_prepare_ok hcompiles.prepare_eq, hwrite]

/-- A job that can be done writes the SQL text of its input. -/
theorem run_of_compiles (h : self.Compiles tree source sql) (houtput : tree.Writable self.output) :
    ∃ next log, self.run tree = (next, ⟨log ++ [.wrote sql.utf8ByteSize self.output], .ok ()⟩) ∧
      tree.Written self.output sql.toUTF8 next := by
  obtain ⟨location, htarget⟩ := FileTree.exists_target?_iff.mpr houtput
  have hwrite : tree.write? self.output sql.toUTF8 = some (tree.put location sql.toUTF8) := by
    rw [FileTree.write?, htarget]
    rfl
  refine ⟨_, self.logOf source, ?_, FileTree.written_put htarget sql.toUTF8⟩
  rw [run_of_prepare_ok h.prepare_eq, hwrite]

theorem run_outcome_eq_ok_iff : (self.run tree).2.outcome = .ok () ↔
    (∃ source sql, self.Compiles tree source sql) ∧ tree.Writable self.output := by
  constructor
  · intro h
    rcases self.exists_fault_or_compiles tree with ⟨fault, hfault⟩ | hdone
    · obtain ⟨log, hrun, _⟩ := run_of_fault hfault
      simp [hrun] at h
    · exact hdone
  · rintro ⟨⟨source, sql, hcompiles⟩, houtput⟩
    obtain ⟨next, log, hrun, _⟩ := run_of_compiles hcompiles houtput
    rw [hrun]

theorem run_outcome_eq_error_iff :
    (self.run tree).2.outcome = .error error ↔ self.Fault tree error := by
  constructor
  · intro h
    rcases self.exists_fault_or_compiles tree with ⟨fault, hfault⟩ | hdone
    · obtain ⟨log, hrun, _⟩ := run_of_fault hfault
      rw [hrun] at h
      cases h
      exact hfault
    · cases (run_outcome_eq_ok_iff.mpr hdone).symm.trans h
  · intro hfault
    obtain ⟨log, hrun, _⟩ := run_of_fault hfault
    rw [hrun]

/-- A job is done wholly or not at all. It is done exactly when the input is a file with
a text that compiles and the output can be written; then the output has the SQL
text, and nothing else has changed. Otherwise nothing has changed, and the error
is the first thing that stands in the way. -/
theorem run_all_or_nothing (self : Options) (tree : FileTree) :
    ((self.run tree).2.outcome = .ok () ↔
      (∃ source sql, self.Compiles tree source sql) ∧ tree.Writable self.output) ∧
    (∀ source sql, self.Compiles tree source sql → tree.Writable self.output →
      tree.Written self.output sql.toUTF8 (self.run tree).1) ∧
    (∀ error, (self.run tree).2.outcome = .error error ↔ self.Fault tree error) ∧
    (∀ error, (self.run tree).2.outcome = .error error → (self.run tree).1 = tree) ∧
    ((∃ bytes path, .wrote bytes path ∈ (self.run tree).2.log) ↔
      (self.run tree).2.outcome = .ok ()) := by
  refine ⟨run_outcome_eq_ok_iff, ?_, fun _ => run_outcome_eq_error_iff, ?_, ?_⟩
  · intro source sql hcompiles houtput
    obtain ⟨next, log, hrun, hwritten⟩ := run_of_compiles hcompiles houtput
    rwa [hrun]
  · intro error herror
    obtain ⟨log, hrun, _⟩ := run_of_fault (run_outcome_eq_error_iff.mp herror)
    rw [hrun]
  · rcases self.exists_fault_or_compiles tree with ⟨fault, hfault⟩ |
      ⟨⟨source, sql, hcompiles⟩, houtput⟩
    · obtain ⟨log, hrun, hlog⟩ := run_of_fault hfault
      simp [hrun, hlog]
    · obtain ⟨next, log, hrun, _⟩ := run_of_compiles hcompiles houtput
      rw [hrun]
      exact ⟨fun _ => rfl, fun _ => ⟨sql.utf8ByteSize, self.output, by simp⟩⟩

end Options

end SchemaScript
