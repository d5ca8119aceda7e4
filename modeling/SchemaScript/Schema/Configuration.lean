namespace SchemaScript

/-- The settings of a schema, at most one value a key, in the order of the
keys. -/
structure Configuration where
  entries : List (String × String)
  sorted : entries.Pairwise (fun a b => a.1 < b.1)
deriving DecidableEq

namespace Configuration

/-- The keys that a source text can set. -/
def keys : List String := ["provider", "url"]

/-- Puts an entry in its place, over an entry of the same key. -/
def insertEntry (key value : String) : List (String × String) → List (String × String)
  | [] => [(key, value)]
  | (k, v) :: rest =>
    if key < k then (key, value) :: (k, v) :: rest
    else if key = k then (key, value) :: rest
    else (k, v) :: insertEntry key value rest

theorem mem_insertEntry {key value : String} {entries : List (String × String)}
    {entry : String × String} (h : entry ∈ insertEntry key value entries) :
    entry.1 = key ∨ entry ∈ entries := by
  induction entries with
  | nil => simp_all [insertEntry]
  | cons head rest ih =>
    obtain ⟨k, v⟩ := head
    rw [insertEntry] at h
    split at h
    · rcases List.mem_cons.mp h with rfl | hold
      · exact .inl rfl
      · exact .inr hold
    split at h
    · rcases List.mem_cons.mp h with rfl | hold
      · exact .inl rfl
      · exact .inr (List.mem_cons_of_mem _ hold)
    · rcases List.mem_cons.mp h with rfl | hnew
      · exact .inr List.mem_cons_self
      · exact (ih hnew).imp_right (List.mem_cons_of_mem _)

theorem insertEntry_sorted (key value : String) {entries : List (String × String)}
    (h : entries.Pairwise (fun a b => a.1 < b.1)) :
    (insertEntry key value entries).Pairwise (fun a b => a.1 < b.1) := by
  induction entries with
  | nil => simp [insertEntry]
  | cons head rest ih =>
    obtain ⟨k, v⟩ := head
    obtain ⟨hhead, hrest⟩ := List.pairwise_cons.mp h
    rw [insertEntry]
    split
    next hlt =>
      refine List.pairwise_cons.mpr ⟨fun entry hentry => ?_, h⟩
      rcases List.mem_cons.mp hentry with rfl | hentry
      · exact hlt
      · exact String.lt_trans hlt (hhead entry hentry)
    next hlt =>
      split
      next heq => exact List.pairwise_cons.mpr ⟨by simpa only [heq] using hhead, hrest⟩
      next hne =>
        refine List.pairwise_cons.mpr ⟨fun entry hentry => ?_, ih hrest⟩
        rcases mem_insertEntry hentry with heq | hold
        · have hle : k ≤ key := String.not_lt.mp hlt
          rw [heq]
          exact Std.lt_of_le_of_ne hle (Ne.symm hne)
        · exact hhead entry hold

/-- The value of a key. -/
def get? (self : Configuration) (key : String) : Option String := self.entries.lookup key

/-- Sets a key, over an earlier value. -/
def insert (self : Configuration) (key value : String) : Configuration :=
  ⟨insertEntry key value self.entries, insertEntry_sorted key value self.sorted⟩

/-- Removes a key and its value. -/
def erase (self : Configuration) (key : String) : Configuration :=
  ⟨self.entries.filter (·.1 != key), self.sorted.filter _⟩

/-- No settings at all. -/
def empty : Configuration := ⟨[], .nil⟩

/-- The settings of a source text that sets nothing. -/
def initial : Configuration := empty.insert "provider" "sqlite"

/-- The name of the dialect to generate. -/
def provider (self : Configuration) : String := (self.get? "provider").getD "sqlite"

end Configuration

end SchemaScript
