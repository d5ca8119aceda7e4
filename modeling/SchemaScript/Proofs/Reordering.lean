import Mathlib
import SchemaScript.Proofs.Determinacy
import SchemaScript.Proofs.Modularity

namespace SchemaScript

/-- A correspondence that leaves no choice is a function. -/
theorem exists_eq_map_of_forall₂ {α β : Type} [Nonempty β] {related : α → β → Prop}
    (hunique : Relator.RightUnique related) {xs : List α} {ys : List β}
    (h : List.Forall₂ related xs ys) : ∃ f, ys = xs.map f ∧ ∀ x ∈ xs, related x (f x) := by
  have hpartner : ∀ x ∈ xs, ∃ y, related x y := by
    intro x hx
    obtain ⟨y, _, hrelated⟩ := exists_right_of_mem h hx
    exact ⟨y, hrelated⟩
  choose! f hf using hpartner
  have hmap : List.Forall₂ related xs (xs.map f) :=
    List.forall₂_map_right_iff.mpr (List.forall₂_same.mpr hf)
  exact ⟨f, List.right_unique_forall₂' hunique h hmap, hf⟩

section Mentions

/-- A column of the table refers to a table of the name. -/
def Table.Mentions (table : Table) (target : String) : Prop :=
  ∃ column ∈ table.columns, ∃ key, .reference target key ∈ column.attributes

/-- A column line of the table has a reference clause with the name. -/
def TableTree.Mentions (tree : TableTree) (target : String) : Prop :=
  ∃ column ∈ tree.columns, ∃ key, ⟨"reference", [.text target, .text key]⟩ ∈ column.clauses

theorem ClauseTree.Describes.eq_of_reference {self : ClauseTree} {target key : String}
    (h : self.Describes (.reference target key)) :
    self = ⟨"reference", [.text target, .text key]⟩ := by
  obtain ⟨name, arguments⟩ := self
  cases h
  rfl

theorem TableTree.Describes.mentions {tree : TableTree} {table : Table} {target : String}
    (h : tree.Describes table) (hmentions : table.Mentions target) : tree.Mentions target := by
  obtain ⟨column, hcolumn, key, hreference⟩ := hmentions
  obtain ⟨line, hline, _, _, declared, hattributes, hdeclared⟩ :=
    exists_left_of_mem h.columns hcolumn
  rw [hattributes] at hreference
  rcases List.mem_append.mp hreference with htype | hreference
  · cases htree : line.type <;> simp [htree, TypeTree.attributes] at htype
  · obtain ⟨clause, hclause, hdescribes⟩ := exists_left_of_mem hdeclared hreference
    exact ⟨line, hline, key, hdescribes.eq_of_reference ▸ hclause⟩

/-- A table can stand after other tables than it did, if they have what it refers to. -/
theorem Table.WellFormed.after {earlier later : List Table} {table : Table}
    (h : table.WellFormed earlier)
    (hmentions : ∀ target ∈ earlier, table.Mentions target.name → target ∈ later) :
    table.WellFormed later where
  name := h.name
  distinct := h.distinct
  references := h.references
  columns := by
    intro column hcolumn
    obtain ⟨hname, htyped, hkinds, hattributes, hactions⟩ := h.columns column hcolumn
    refine ⟨hname, htyped, hkinds, fun attached hmem => ?_, hactions⟩
    have hattached := hattributes attached hmem
    cases attached with
    | reference target key =>
      obtain ⟨found, hfound, rfl, hkey⟩ := hattached
      exact ⟨found, hmentions found hfound ⟨column, hcolumn, key, hmem⟩, rfl, hkey⟩
    | _ => exact hattached

/-- Tables can be declared in any order in which none mentions a later one. -/
theorem Schema.WellFormed.reorder {schema : Schema} {tables : List Table} (h : schema.WellFormed)
    (hperm : tables.Perm schema.tables)
    (hordered : tables.Pairwise fun table later => ¬ table.Mentions later.name) :
    WellFormed ⟨schema.configuration, tables⟩ where
  configuration := h.configuration
  distinct := ((hperm.map Table.name).nodup_iff).mpr h.distinct
  tables := by
    rintro before table after rfl
    have hmem : table ∈ schema.tables := hperm.mem_iff.mp (by simp)
    obtain ⟨earlier, later, hsplit⟩ := List.append_of_mem hmem
    have htable := h.tables earlier table later hsplit
    refine htable.after fun target htarget hmentions => ?_
    have hmem : target ∈ before ++ table :: after := hperm.mem_iff.mpr (by simp [hsplit, htarget])
    rcases List.mem_append.mp hmem with hbefore | hmem
    · exact hbefore
    rcases List.mem_cons.mp hmem with rfl | hafter
    · -- Before the reordering the target stood before the table, so it is another one.
      have hdistinct := h.distinct
      rw [hsplit] at hdistinct
      simp only [List.map_append, List.map_cons, List.nodup_append] at hdistinct
      exact absurd rfl (hdistinct.2.2 _ (List.mem_map_of_mem htarget) _ (List.mem_cons_self))
    · have hlater := (List.pairwise_cons.mp (List.pairwise_append.mp hordered).2.1).1
      exact absurd hmentions (hlater target hafter)

end Mentions

/-- A text that holds one table and the line end after it. -/
structure Block where
  text : String
  tree : TableTree
  derived : ∃ tokens eol, (Script.ofText text).tokens = tokens ++ [eol] ∧ TableRule tokens tree ∧
    eol.kind = .eol

namespace Block

/-- The table is the one that the block describes. -/
def Declares (self : Block) (table : Table) : Prop :=
  self.tree.Describes table ∧ table.references = table.foreignKeys

/-- The statement creates the table of the block, as the block alone tells it. -/
def Gives (self : Block) (statement : CreateTable) : Prop :=
  ∃ table, self.Declares table ∧ statement.Defines .sqlite table

theorem declares_rightUnique : Relator.RightUnique Declares :=
  fun _ _ _ h hother => h.1.unique hother.1 h.2 hother.2

theorem exists_eol (self : Block) :
    ∃ last, (Script.ofText self.text).tokens.getLast? = some last ∧ last.kind = .eol := by
  obtain ⟨tokens, eol, htokens, _, heol⟩ := self.derived
  exact ⟨eol, by simp [htokens], heol⟩

theorem exists_tableWord (self : Block) :
    ∃ word rest, (Script.ofText self.text).tokens = word :: rest ∧ word.kind = .tableWord := by
  obtain ⟨tokens, eol, htokens, hrule, _⟩ := self.derived
  generalize self.tree = tree at hrule
  obtain ⟨hword, _⟩ := hrule
  exact ⟨_, _, htokens, hword⟩

/-- The kinds and literals of the tokens of a block. -/
def labels (self : Block) : List Label := (Script.ofText self.text).tokens.map Token.label

/-- The tokens of blocks that are put together are the tokens of the one and then those
of the next. No block begins with a line feed that could join a carriage return at
the end of the block before it. -/
theorem labels_join (blocks : List Block) :
    (Script.ofText (String.join (blocks.map text))).tokens.map Token.label =
      blocks.flatMap labels := by
  induction blocks with
  | nil => cbv
  | cons block rest ih =>
    obtain ⟨last, hlast, hkind⟩ := block.exists_eol
    obtain ⟨later, htokens, hlabels⟩ :=
      Script.exists_tokens_append hlast hkind (String.join (rest.map text))
    rw [List.map_cons, String.join_cons, htokens, List.map_append, List.flatMap_cons]
    rw [ih] at hlabels
    rcases hlabels with hlabels | hlabels
    · rw [hlabels, labels]
    · cases rest with
      | nil => simp at hlabels
      | cons next rest =>
        obtain ⟨word, others, hword, hkind⟩ := next.exists_tableWord
        rw [List.flatMap_cons, labels, hword] at hlabels
        have heol : word.kind = .eol := (Token.label_eq_iff.mp (List.cons.inj hlabels).1.symm).1
        simp [hkind] at heol

theorem derives_join {blocks : List Block} {tokens : List Token}
    (h : tokens.map Token.label = blocks.flatMap labels) :
    LinesRule tokens (blocks.map fun block => .table block.tree) := by
  induction blocks generalizing tokens with
  | nil =>
    obtain rfl := List.map_eq_nil_iff.mp h
    exact .nil
  | cons block rest ih =>
    obtain ⟨table, eol, htokens, hrule, heol⟩ := block.derived
    rw [List.flatMap_cons, labels, htokens, List.map_append, List.append_assoc] at h
    obtain ⟨table', later, rfl, htable, hlater⟩ := List.map_eq_append_iff.mp h
    obtain ⟨eol', later, rfl, heol', hlater⟩ := List.map_eq_cons_iff.mp hlater
    have hfirst := (LinesRule.nil.table (hrule.relabel htable)).blank
      (Token.kind_of_label_eq heol' heol)
    simpa using hfirst.append (ih hlater)

end Block

namespace Schema

/-- Blocks are read as a schema exactly when the schema is well formed, has no settings
and has the tables that the blocks declare. -/
theorem parse_join_eq_ok_iff {blocks : List Block} {schema : Schema} :
    (parse (String.join (blocks.map Block.text))).outcome = .ok schema ↔
      schema.configuration = .initial ∧ List.Forall₂ Block.Declares blocks schema.tables ∧
        schema.WellFormed := by
  have htrees : Item.tables (blocks.map fun block => .table block.tree) =
      blocks.map Block.tree := by
    simp [Item.tables, List.filterMap_map]
  have hsettings : Configuration.ofSettings
      (Item.settings (blocks.map fun block => .table block.tree)) = .initial := by
    simp [Item.settings, List.filterMap_map, Configuration.ofSettings]
  rw [parse_eq_ok_iff_describes (.lines (Block.derives_join (Block.labels_join blocks)))]
  constructor
  · rintro ⟨⟨hconfiguration, htables⟩, hwell⟩
    rw [htrees, List.forall₂_map_left_iff] at htables
    refine ⟨hconfiguration.trans hsettings, ?_, hwell⟩
    refine (forall₂_and_mem htables).imp fun block table h => ⟨h.1, hwell.references table h.2.2⟩
  · rintro ⟨hconfiguration, htables, hwell⟩
    refine ⟨⟨hconfiguration.trans hsettings.symm, ?_⟩, hwell⟩
    rw [htrees, List.forall₂_map_left_iff]
    exact htables.imp fun _ _ h => h.1

end Schema

instance : Nonempty Table := ⟨⟨"", [], []⟩⟩

instance : Nonempty CreateTable := ⟨⟨"", [], []⟩⟩

theorem CreateTable.defines_unique {dialect : Dialect} {table : Table}
    {statement other : CreateTable} (h : statement.Defines dialect table)
    (hother : other.Defines dialect table) : statement = other := by
  have hstatement := Table.statement_eq_ok_iff.mpr h
  exact Except.ok.inj (hstatement.symm.trans (Table.statement_eq_ok_iff.mpr hother))

/-- The order of tables is free, as far as they do not refer to each other. Blocks that
compile together give one statement each, and in any order in which no block refers
to the table of a later one they give the same statements in that order. -/
theorem compile_order_free {blocks : List Block} {sql : String}
    (h : (compile (String.join (blocks.map Block.text))).outcome = .ok sql) :
    ∃ statement : Block → CreateTable, (∀ block ∈ blocks, block.Gives (statement block)) ∧
      sql = "\n\n".intercalate (blocks.map fun block => (statement block).sql) ++ "\n" ∧
      ∀ order : List Block, order.Perm blocks →
        order.Pairwise (fun block later => ¬ block.tree.Mentions later.tree.name) →
        (compile (String.join (order.map Block.text))).outcome =
          .ok ("\n\n".intercalate (order.map fun block => (statement block).sql) ++ "\n") := by
  obtain ⟨schema, statements, hparse, hstatements, rfl⟩ := compile_outcome_eq_ok_iff.mp h
  obtain ⟨hprovider, hnonempty, hdefines⟩ := Schema.statements_eq_ok_iff.mp hstatements
  obtain ⟨hconfiguration, hdeclares, hwell⟩ := Schema.parse_join_eq_ok_iff.mp hparse
  obtain ⟨table, htables, hdeclared⟩ :=
    exists_eq_map_of_forall₂ Block.declares_rightUnique hdeclares
  rw [htables, List.forall₂_map_right_iff] at hdefines
  have hunique : Relator.RightUnique fun block statement =>
      CreateTable.Defines .sqlite statement (table block) :=
    fun _ _ _ h hother => CreateTable.defines_unique h hother
  obtain ⟨statement, rfl, hdefined⟩ := exists_eq_map_of_forall₂ hunique hdefines.flip
  have hscript : ∀ order : List Block, CreateTable.script (order.map statement) =
      "\n\n".intercalate (order.map fun block => (statement block).sql) ++ "\n" := by
    intro order
    rw [CreateTable.script, List.map_map]
    rfl
  refine ⟨statement, fun block hmem => ⟨table block, hdeclared block hmem, hdefined block hmem⟩,
    hscript blocks, fun order hperm hordered => ?_⟩
  have hmem : ∀ block ∈ order, block ∈ blocks := fun block => hperm.mem_iff.mp
  have hbackward : (order.map table).Pairwise fun table later => ¬ table.Mentions later.name := by
    refine List.pairwise_map.mpr (hordered.imp_of_mem fun hblock hlater hfree hmentions => ?_)
    have hname := (hdeclared _ (hmem _ hlater)).1.name
    exact hfree (hname ▸ (hdeclared _ (hmem _ hblock)).1.mentions hmentions)
  have hreordered := hwell.reorder (htables ▸ hperm.map table) hbackward
  have hagain : (Schema.parse (String.join (order.map Block.text))).outcome =
      .ok ⟨schema.configuration, order.map table⟩ := by
    refine Schema.parse_join_eq_ok_iff.mpr ⟨hconfiguration, ?_, hreordered⟩
    exact List.forall₂_map_right_iff.mpr
      (List.forall₂_same.mpr fun block hblock => hdeclared block (hmem block hblock))
  rw [← hscript order]
  refine compile_outcome_eq_ok_iff.mpr ⟨_, order.map statement, hagain, ?_, rfl⟩
  refine Schema.statements_eq_ok_iff.mpr ⟨hprovider, ?_, ?_⟩
  · rintro hnil
    obtain rfl := List.map_eq_nil_iff.mp hnil
    exact hnonempty (htables.trans (by rw [hperm.symm.eq_nil]; rfl))
  · rw [List.forall₂_map_right_iff, List.forall₂_map_left_iff]
    exact List.forall₂_same.mpr fun block hblock => hdefined block (hmem block hblock)

/-- A table that refers to nothing comes to the front, before a block that ends with a
carriage return. -/
theorem compile_order_free_with_reference :
    ∃ (target user other : Block) (statement : Block → CreateTable) (sql : String),
      target.text = "table a\n x int\nend\r" ∧
      user.text = "table b\n y int @reference(\"a\",\"x\")\nend\n" ∧
      other.text = "table c\n z int\nend\n" ∧
      (compile (String.join ([target, user, other].map Block.text))).outcome = .ok sql ∧
      sql = "\n\n".intercalate
        [(statement target).sql, (statement user).sql, (statement other).sql] ++ "\n" ∧
      (compile (String.join ([other, target, user].map Block.text))).outcome =
        .ok ("\n\n".intercalate
          [(statement other).sql, (statement target).sql, (statement user).sql] ++ "\n") := by
  have htarget : (Script.ofText "table a\n x int\nend\r").tokens =
      [⟨.tableWord, "table", ⟨1, 1⟩⟩, ⟨.identifier, "a", ⟨1, 7⟩⟩, ⟨.eol, "", ⟨1, 8⟩⟩,
        ⟨.identifier, "x", ⟨2, 2⟩⟩, ⟨.identifier, "int", ⟨2, 4⟩⟩, ⟨.eol, "", ⟨2, 7⟩⟩,
        ⟨.endWord, "end", ⟨3, 1⟩⟩] ++ [⟨.eol, "", ⟨3, 4⟩⟩] := by
    cbv
  have huser : (Script.ofText "table b\n y int @reference(\"a\",\"x\")\nend\n").tokens =
      [⟨.tableWord, "table", ⟨1, 1⟩⟩, ⟨.identifier, "b", ⟨1, 7⟩⟩, ⟨.eol, "", ⟨1, 8⟩⟩,
        ⟨.identifier, "y", ⟨2, 2⟩⟩, ⟨.identifier, "int", ⟨2, 4⟩⟩,
        ⟨.attributeName, "reference", ⟨2, 8⟩⟩, ⟨.leftParen, "(", ⟨2, 18⟩⟩,
        ⟨.string, "a", ⟨2, 19⟩⟩, ⟨.comma, ",", ⟨2, 22⟩⟩, ⟨.string, "x", ⟨2, 23⟩⟩,
        ⟨.rightParen, ")", ⟨2, 26⟩⟩, ⟨.eol, "", ⟨2, 27⟩⟩,
        ⟨.endWord, "end", ⟨3, 1⟩⟩] ++ [⟨.eol, "", ⟨3, 4⟩⟩] := by
    cbv
  have hother : (Script.ofText "table c\n z int\nend\n").tokens =
      [⟨.tableWord, "table", ⟨1, 1⟩⟩, ⟨.identifier, "c", ⟨1, 7⟩⟩, ⟨.eol, "", ⟨1, 8⟩⟩,
        ⟨.identifier, "z", ⟨2, 2⟩⟩, ⟨.identifier, "int", ⟨2, 4⟩⟩, ⟨.eol, "", ⟨2, 7⟩⟩,
        ⟨.endWord, "end", ⟨3, 1⟩⟩] ++ [⟨.eol, "", ⟨3, 4⟩⟩] := by
    cbv
  let target : Block := ⟨_, ⟨"a", [⟨"x", .named "int", []⟩]⟩, _, _, htarget,
    .table rfl rfl rfl (.column .nil (.column rfl (.named rfl) .nil rfl)) rfl, rfl⟩
  let user : Block := ⟨_, ⟨"b", [⟨"y", .named "int", [⟨"reference", [.text "a", .text "x"]⟩]⟩]⟩, _,
    _, huser,
    .table rfl rfl rfl (.column .nil (.column rfl (.named rfl)
      (.clause .nil (.filled rfl rfl (.more (.one rfl) rfl rfl) rfl)) rfl)) rfl, rfl⟩
  let other : Block := ⟨_, ⟨"c", [⟨"z", .named "int", []⟩]⟩, _, _, hother,
    .table rfl rfl rfl (.column .nil (.column rfl (.named rfl) .nil rfl)) rfl, rfl⟩
  have hparse : (Schema.parse (String.join ["table a\n x int\nend\r",
        "table b\n y int @reference(\"a\",\"x\")\nend\n", "table c\n z int\nend\n"])).outcome =
      .ok ⟨.initial, [⟨"a", [⟨"x", .named "int", []⟩], []⟩,
        ⟨"b", [⟨"y", .named "int", [.reference "a" "x"]⟩], [⟨"y", "a", "x", none, none⟩]⟩,
        ⟨"c", [⟨"z", .named "int", []⟩], []⟩]⟩ := by
    decide +kernel
  have hcompile : (compile (String.join ([target, user, other].map Block.text))).outcome =
      .ok (CreateTable.script [⟨"a", [⟨"x", "INTEGER", false, none, false, false⟩], []⟩,
        ⟨"b", [⟨"y", "INTEGER", false, none, false, false⟩], [⟨"y", "a", "x", none, none⟩]⟩,
        ⟨"c", [⟨"z", "INTEGER", false, none, false, false⟩], []⟩]) :=
    compile_outcome_eq_ok_iff.mpr ⟨_, _, hparse, by decide +kernel, rfl⟩
  have hordered : [other, target, user].Pairwise fun block later =>
      ¬ block.tree.Mentions later.tree.name := by
    simp [target, user, other, TableTree.Mentions]
  obtain ⟨statement, _, hsql, hfree⟩ := compile_order_free hcompile
  exact ⟨target, user, other, statement, _, rfl, rfl, rfl, hcompile, hsql,
    hfree [other, target, user] (@List.perm_append_comm _ [other] [target, user]) hordered⟩

end SchemaScript
