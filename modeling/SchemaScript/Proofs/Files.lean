import Mathlib
import SchemaScript.FileTree

namespace SchemaScript

namespace FileTree

/-- The path is a name in the directory of the parent path. A name alone is one in the
working directory, which is the root. -/
inductive IsChild : (path parent name : String) → Prop where
  | below {parent name : String} (hparent : parent ≠ "") (hname : '/' ∉ name.toList) :
      IsChild (parent ++ "/" ++ name) parent name
  | top {name : String} (hname : '/' ∉ name.toList) : IsChild ("/" ++ name) "/" name
  | plain {name : String} (hne : name ≠ "") (hname : '/' ∉ name.toList) : IsChild name "." name

/-- A file can be written: its directory exists, and it is not a directory itself. -/
structure Writable (tree : FileTree) (path : String) : Prop where
  parent : ∃ parent name, IsChild path parent name ∧ tree.find? parent = some .directory
  free : tree.find? path ≠ some .directory

/-- The next tree differs from the tree only in the file that the path leads to, which
has the content. -/
structure Written (tree : FileTree) (path : String) (content : ByteArray) (next : FileTree) :
    Prop where
  content : next.find? path = some (.file content)
  entries : ∀ location, next.locate? path ≠ some location →
    next.entry? location = tree.entry? location
  paths : ∀ other, next.locate? other ≠ next.locate? path → next.find? other = tree.find? other

section Paths

theorem enter_of_not_mem {name : String} (h : name ∉ ["", ".", ".."]) (here : Location) :
    here.enter name = here ++ [name] := by
  simp only [List.mem_cons, List.not_mem_nil, or_false, not_or] at h
  simp [Location.enter, h]

theorem splitPath_ne_nil (cs : List Char) : splitPath cs ≠ [] := by
  cases cs with
  | nil => simp [splitPath]
  | cons c cs =>
    rw [splitPath]
    split
    · simp
    · split <;> simp

theorem splitPath_append (cs ds : List Char) :
    splitPath (cs ++ '/' :: ds) = splitPath cs ++ splitPath ds := by
  induction cs with
  | nil =>
    obtain ⟨name, names, hds⟩ := List.exists_cons_of_ne_nil (splitPath_ne_nil ds)
    simp [splitPath, hds]
  | cons c cs ih =>
    obtain ⟨name, names, hcs⟩ := List.exists_cons_of_ne_nil (splitPath_ne_nil cs)
    simp only [List.cons_append, splitPath, ih, hcs]
    split_ifs <;> rfl

theorem splitPath_of_not_mem {cs : List Char} (h : '/' ∉ cs) :
    splitPath cs = [String.ofList cs] := by
  induction cs with
  | nil => rfl
  | cons c cs ih =>
    rw [List.mem_cons, not_or] at h
    simp [splitPath, ih h.2, Ne.symm h.1]

theorem exists_isChild {path : String} (h : path ≠ "") :
    ∃ parent name, IsChild path parent name := by
  by_cases hslash : '/' ∈ path.toList
  · obtain ⟨after, before, hsplit, hafter⟩ :=
      List.eq_append_cons_of_mem (List.mem_reverse.mpr hslash)
    have hname : '/' ∉ (String.ofList after.reverse).toList := by simpa using hafter
    have hpath : path = String.ofList before.reverse ++ "/" ++ String.ofList after.reverse := by
      rw [← String.toList_inj, ← List.reverse_inj, hsplit]
      simp
    rw [hpath]
    by_cases hparent : String.ofList before.reverse = ""
    · rw [hparent, String.empty_append]
      exact ⟨_, _, .top hname⟩
    · exact ⟨_, _, .below hparent hname⟩
  · exact ⟨_, _, .plain h hslash⟩

end Paths

variable {tree : FileTree} {here there location : Location} {name parent path : String}
variable {names more : List String} {content : ByteArray}

@[simp] theorem isDirectory_root : tree.isDirectory [] = true := by simp [isDirectory, entry?]

theorem isDirectory_iff : tree.isDirectory here ↔ tree.entry? here = some .directory := by
  simp [isDirectory]

section Walks

theorem walk_append (tree : FileTree) (here : Location) (names more : List String) :
    tree.walk here (names ++ more) = (tree.walk here names).bind (tree.walk · more) := by
  induction names generalizing here with
  | nil => rfl
  | cons name names ih =>
    simp only [List.cons_append, walk]
    split_ifs
    · rfl
    · rfl
    · exact ih _

theorem locate?_of_ne (h : path ≠ "") : tree.locate? path = tree.walk [] (splitPath path.toList) :=
  if_neg h

theorem ne_empty_of_target? (h : tree.target? path = some location) : path ≠ "" := by
  rintro rfl
  simp [target?, splitPath, walk] at h

theorem find?_eq (path : String) : tree.find? path = (tree.locate? path).bind tree.entry? := rfl

theorem IsChild.splitPath_eq (h : IsChild path parent name) (tree : FileTree) :
    ∃ names, splitPath path.toList = names ++ [name] ∧
      tree.walk [] names = tree.locate? parent := by
  cases h with
  | below hparent hname =>
    refine ⟨splitPath parent.toList, ?_, (locate?_of_ne hparent).symm⟩
    simp [splitPath_append, splitPath_of_not_mem hname]
  | top hname =>
    refine ⟨[""], ?_, ?_⟩
    · simp [splitPath, splitPath_of_not_mem hname]
    · simp [locate?, splitPath, walk, Location.enter, entry?]
  | plain _ hname =>
    refine ⟨[], by simp [splitPath_of_not_mem hname], ?_⟩
    simp [locate?, splitPath, walk, Location.enter, entry?]

theorem IsChild.ne_empty (h : IsChild path parent name) : path ≠ "" := by
  cases h with
  | below | top => exact fun hempty => by simpa using congrArg String.toList hempty
  | plain hne => exact hne

theorem IsChild.locate?_eq (h : IsChild path parent name) :
    tree.locate? path = (tree.locate? parent).bind fun here => tree.walk here [name] := by
  obtain ⟨names, hsplit, hwalk⟩ := h.splitPath_eq tree
  rw [locate?_of_ne h.ne_empty, hsplit, walk_append, hwalk]

/-- From a directory a name leads to the entry of that name, if there is one. -/
theorem IsChild.find?_eq (h : IsChild path parent name) (hparent : tree.locate? parent = some here)
    (hdirectory : tree.isDirectory here) : tree.find? path = tree.entry? (here.enter name) := by
  rw [FileTree.find?_eq, h.locate?_eq, hparent, Option.bind_some, walk, hdirectory]
  cases hentry : tree.entry? (here.enter name) <;> simp [walk, hentry]

/-- The locations above a location are directories. -/
def Sheltered (tree : FileTree) (here : Location) : Prop :=
  ∀ above, above <+: here.dropLast → tree.isDirectory above

theorem Sheltered.enter (h : tree.Sheltered here) (hdirectory : tree.isDirectory here)
    (name : String) : tree.Sheltered (here.enter name) := by
  unfold Location.enter
  split_ifs
  · exact h
  · exact fun above habove => h above (habove.trans (List.dropLast_prefix _))
  · intro above habove
    rw [List.dropLast_concat] at habove
    rcases List.eq_nil_or_concat' here with rfl | ⟨outer, last, rfl⟩
    · rwa [List.prefix_nil.mp habove]
    · rcases List.prefix_concat_iff.mp habove with rfl | hcloser
      · exact hdirectory
      · exact h above (by rwa [List.dropLast_concat])

theorem Sheltered.walk (h : tree.Sheltered here) (hwalk : tree.walk here names = some there) :
    tree.Sheltered there := by
  induction names generalizing here with
  | nil =>
    cases hwalk
    exact h
  | cons name names ih =>
    rw [FileTree.walk] at hwalk
    split_ifs at hwalk with hdirectory
    exact ih (h.enter (by simpa using hdirectory) name) hwalk

/-- Whatever a path leads to, two dots lead from there to a directory. -/
theorem isDirectory_dropLast (h : tree.locate? path = some here) :
    tree.isDirectory here.dropLast := by
  have hroot : tree.Sheltered [] := fun above habove => by
    simp [List.prefix_nil.mp habove]
  have hne : path ≠ "" := by
    rintro rfl
    cases h
  exact hroot.walk (locate?_of_ne hne ▸ h) _ List.prefix_rfl

end Walks

section Targets

theorem IsChild.target?_eq_some_iff (h : IsChild path parent name) :
    tree.target? path = some location ↔
      ∃ here, tree.locate? parent = some here ∧ tree.isDirectory here ∧
        name ∉ ["", ".", ".."] ∧ ¬ tree.isDirectory location ∧ location = here ++ [name] := by
  obtain ⟨names, hsplit, hwalk⟩ := h.splitPath_eq tree
  simp only [target?, hsplit, List.getLast?_concat, List.dropLast_concat, hwalk,
    Option.bind_eq_bind, Option.bind_some, Option.bind_eq_some_iff]
  refine exists_congr fun here => and_congr_right fun _ => ?_
  constructor
  · intro h
    split_ifs at h with hname hdirectory hfree
    cases h
    exact ⟨by simpa using hdirectory, by simpa using hname, hfree, rfl⟩
  · rintro ⟨hdirectory, hname, hfree, rfl⟩
    simp only [List.mem_cons, List.not_mem_nil, or_false] at hname
    simp [hname, hdirectory, hfree]

/-- A file can be written exactly where there is a target for it. -/
theorem exists_target?_iff :
    (∃ location, tree.target? path = some location) ↔ tree.Writable path := by
  constructor
  · rintro ⟨location, htarget⟩
    obtain ⟨parent, name, hchild⟩ := exists_isChild (ne_empty_of_target? htarget)
    obtain ⟨here, hparent, hdirectory, hname, hfree, rfl⟩ :=
      hchild.target?_eq_some_iff.mp htarget
    have hfound := hchild.find?_eq hparent hdirectory
    refine ⟨⟨parent, name, hchild, ?_⟩, ?_⟩
    · rw [find?_eq, hparent]
      exact isDirectory_iff.mp hdirectory
    · rw [hfound, enter_of_not_mem hname here]
      exact fun hentry => hfree (isDirectory_iff.mpr hentry)
  · rintro ⟨⟨parent, name, hchild, hfound⟩, hfree⟩
    obtain ⟨here, hparent, hentry⟩ := Option.bind_eq_some_iff.mp hfound
    have hdirectory := isDirectory_iff.mpr hentry
    rw [hchild.find?_eq hparent hdirectory, Ne, ← isDirectory_iff] at hfree
    have hname : name ∉ ["", ".", ".."] := by
      intro hmem
      -- The names that are no file names lead to directories.
      simp only [List.mem_cons, List.not_mem_nil, or_false] at hmem
      rcases hmem with rfl | rfl | rfl
      · exact hfree hdirectory
      · exact hfree hdirectory
      · exact hfree (isDirectory_dropLast hparent)
    rw [enter_of_not_mem hname here] at hfree
    exact ⟨_, hchild.target?_eq_some_iff.mpr ⟨here, hparent, hdirectory, hname, hfree, rfl⟩⟩

end Targets

section Writing

/-- The tree with a file at a location. -/
def put (self : FileTree) (location : Location) (content : ByteArray) : FileTree :=
  ⟨self.entries.insert location (.file content)⟩

theorem entry?_put (hroot : location ≠ []) (other : Location) :
    FileTree.entry? (tree.put location content) other =
      if other = location then some (.file content) else tree.entry? other := by
  unfold entry? put
  by_cases hother : other = []
  · simp [hother, hroot.symm]
  · simp [hother, Std.TreeMap.getElem?_insert, Std.LawfulEqCmp.compare_eq_iff_eq,
      @eq_comm _ location]

theorem isDirectory_put (hroot : location ≠ []) (hfree : ¬ tree.isDirectory location)
    (other : Location) :
    (tree.put location content).isDirectory other = tree.isDirectory other := by
  by_cases hother : other = location
  · subst hother
    rw [Bool.eq_false_iff.mpr hfree]
    simp [isDirectory, entry?_put hroot]
  · simp [isDirectory, entry?_put hroot, hother]

/-- A new file changes no walk but those that end at it. -/
theorem walk_put (hroot : location ≠ []) (hfree : ¬ tree.isDirectory location) :
    (tree.put location content).walk here names = tree.walk here names ∨
      tree.walk here names = none ∧
        (tree.put location content).walk here names = some location := by
  induction names generalizing here with
  | nil => exact .inl rfl
  | cons name names ih =>
    simp only [walk, isDirectory_put hroot hfree, entry?_put hroot]
    by_cases hnext : here.enter name = location
    · rw [hnext]
      cases names with
      | nil => cases tree.isDirectory here <;> cases tree.entry? location <;> simp [walk]
      | cons second names =>
        -- A file is no place to walk on from.
        simp [walk, isDirectory_put hroot hfree, Bool.eq_false_iff.mpr hfree]
    · simp only [hnext, if_false]
      split_ifs
      · exact .inl rfl
      · exact .inl rfl
      · exact ih

theorem locate?_put (hroot : location ≠ []) (hfree : ¬ tree.isDirectory location) :
    (tree.put location content).locate? path = tree.locate? path ∨
      tree.locate? path = none ∧ (tree.put location content).locate? path = some location := by
  unfold locate?
  split_ifs
  · exact .inl rfl
  · exact walk_put hroot hfree

theorem written_put (h : tree.target? path = some location) (content : ByteArray) :
    tree.Written path content (tree.put location content) := by
  obtain ⟨parent, name, hchild⟩ := exists_isChild (ne_empty_of_target? h)
  obtain ⟨here, hparent, hdirectory, hname, hfree, rfl⟩ := hchild.target?_eq_some_iff.mp h
  have hroot : here ++ [name] ≠ [] := by simp
  have hparent' : (tree.put (here ++ [name]) content).locate? parent = some here := by
    rcases locate?_put hroot hfree with hsame | ⟨hnone, _⟩
    · exact hsame.trans hparent
    · cases hnone.symm.trans hparent
  have hlocated : (tree.put (here ++ [name]) content).locate? path = some (here ++ [name]) := by
    rw [hchild.locate?_eq, hparent', Option.bind_some, walk, isDirectory_put hroot hfree,
      hdirectory, enter_of_not_mem hname, entry?_put hroot]
    simp [walk]
  refine ⟨?_, ?_, ?_⟩
  · rw [find?_eq, hlocated, Option.bind_some, entry?_put hroot, if_pos rfl]
  · intro location hother
    rw [entry?_put hroot, if_neg]
    rintro rfl
    exact hother hlocated
  · intro other hother
    rw [hlocated] at hother
    have hsame : (tree.put (here ++ [name]) content).locate? other = tree.locate? other := by
      rcases locate?_put hroot hfree with hsame | ⟨_, hnew⟩
      · exact hsame
      · exact absurd hnew hother
    rw [find?_eq, find?_eq, hsame]
    rw [hsame] at hother
    refine Option.bind_congr fun location hlocation => ?_
    rw [entry?_put hroot, if_neg]
    rintro rfl
    exact hother hlocation

end Writing

end FileTree

end SchemaScript
