import Mathlib
import SchemaScript.CommandLine

namespace SchemaScript

namespace CommandLine

/-- The text cannot be taken for a flag: it starts with no hyphen, or it is nothing but
a hyphen. -/
def IsPlain (text : String) : Prop := text = "-" ∨ text.toList.head? ≠ some '-'

/-- The short flag of the output, alone or clustered behind the flag that asks for the log. -/
def outputFlag (clustered : Bool) : String := if clustered then "-vo" else "-o"

/-- The groups of arguments that give an output. Those with a cluster ask for the log, too. -/
inductive OutputGroup (value : String) : Bool → List String → Prop where
  | apart {clustered : Bool} (hplain : IsPlain value) :
      OutputGroup value clustered [outputFlag clustered, value]
  | attached {clustered : Bool} (hvalue : value.toList.head? ≠ some '=') :
      OutputGroup value clustered [outputFlag clustered ++ value]
  | joined {clustered : Bool} : OutputGroup value clustered [outputFlag clustered ++ "=" ++ value]
  | longApart (hplain : IsPlain value) : OutputGroup value false ["--output", value]
  | longJoined : OutputGroup value false ["--output=" ++ value]

/-- `Asks input output verbose arguments` says that the arguments are groups, one for each
thing that is given. They can come in any order, but for a separator and the input
behind it, which come last. -/
inductive Asks : Option String → Option String → Bool → List String → Prop where
  | nothing : Asks none none false []
  | input {value : String} {output : Option String} {verbose : Bool} {rest : List String}
      (hplain : IsPlain value) (hrest : Asks none output verbose rest) :
      Asks (some value) output verbose (value :: rest)
  | separated {value : String} : Asks (some value) none false ["--", value]
  | output {value : String} {clustered : Bool} {input : Option String} {verbose : Bool}
      {group rest : List String} (hgroup : OutputGroup value clustered group)
      (honce : clustered → verbose = false) (hrest : Asks input none verbose rest) :
      Asks input (some value) (clustered || verbose) (group ++ rest)
  | verbose {argument : String} {input output : Option String} {rest : List String}
      (hargument : argument = "-v" ∨ argument = "--verbose")
      (hrest : Asks input output false rest) : Asks input output true (argument :: rest)

theorem IsPlain.shape {text : String} (h : IsPlain text) : Shape.ofChars text.toList = .plain := by
  rcases h with rfl | hhead
  · rfl
  · unfold Shape.ofChars
    split
    · simp_all
    · simp_all
    · simp_all
    · rfl

namespace Reading

variable {self : Reading} {input output : Option String} {verbose : Bool} {value : String}

theorem hasInput_of_settle (h : self.settle = .ok ⟨input, output, verbose, none⟩) :
    self.hasInput = input.isSome := by
  obtain ⟨input', output', verbose', pending⟩ := self
  cases pending with
  | none =>
    cases h
    simp [hasInput]
  | some pending =>
    cases pending with
    | input value =>
      simp only [settle, setInput] at h
      split_ifs at h
      cases h
      simp [hasInput]
    | output value =>
      cases value with
      | none => cases h
      | some value =>
        simp only [settle, setOutput] at h
        split_ifs at h
        cases h
        simp [hasInput]

/-- The reading takes the arguments and goes on as another one, in which what has been
given can be settled. -/
def Takes (self : Reading) (group : List String) (settled : Reading) : Prop :=
  ∃ next : Reading, next.settle = .ok settled ∧ ∀ rest, self.read (group ++ rest) = next.read rest

section Read

variable {next : Reading} {argument : String} {flags : List Char} {rest : List String}

theorem read_plain (hplain : IsPlain argument) (h : self.plain argument = .ok next) :
    self.read (argument :: rest) = next.read rest := by
  rw [read, hplain.shape]
  simp only [h]
  rfl

theorem read_short (hshape : Shape.ofChars argument.toList = .short flags)
    (h : self.short flags = .ok next) : self.read (argument :: rest) = next.read rest := by
  rw [read, hshape]
  simp only [h]
  rfl

theorem read_long {name : String} {given : Option String}
    (hshape : Shape.ofChars argument.toList = .long name given)
    (h : self.long name given = .ok next) : self.read (argument :: rest) = next.read rest := by
  rw [read, hshape]
  simp only [h]
  rfl

end Read

theorem positional_of_settle (h : self.settle = .ok ⟨none, output, verbose, none⟩) :
    self.positional value = .ok ⟨none, output, verbose, some (.input value)⟩ := by
  rw [positional, hasInput_of_settle h, h]
  rfl

theorem plain_of_settle (h : self.settle = .ok ⟨none, output, verbose, none⟩) :
    self.plain value = .ok ⟨none, output, verbose, some (.input value)⟩ := by
  unfold plain
  split
  next hpending =>
    rw [settle, hpending] at h
    cases h
  next => exact positional_of_settle h

theorem settle_input (h : value ≠ "") :
    settle ⟨none, output, verbose, some (.input value)⟩ =
      .ok ⟨some value, output, verbose, none⟩ := by
  simp [settle, setInput, h]

theorem takes_input (h : self.settle = .ok ⟨none, output, verbose, none⟩) (hplain : IsPlain value)
    (hvalue : value ≠ "") : self.Takes [value] ⟨some value, output, verbose, none⟩ :=
  ⟨_, settle_input hvalue, fun _ => read_plain hplain (plain_of_settle h)⟩

theorem takes_verbose {argument : String} (h : self.settle = .ok ⟨input, output, false, none⟩)
    (hargument : argument = "-v" ∨ argument = "--verbose") :
    self.Takes [argument] ⟨input, output, true, none⟩ := by
  refine ⟨⟨input, output, true, none⟩, rfl, fun rest => ?_⟩
  rcases hargument with rfl | rfl
  · have hshape : Shape.ofChars "-v".toList = .short ['v'] := rfl
    apply read_short hshape
    simp only [short, h]
    rfl
  · have hshape : Shape.ofChars "--verbose".toList = .long "verbose" none := by decide
    apply read_long hshape
    simp only [long, h]
    rfl

section Output

variable {settled : Reading}

theorem short_apart (h : self.settle = .ok settled) :
    self.short ['o'] = .ok settled.awaitOutput := by
  simp only [short, h]
  rfl

theorem short_attached (h : self.settle = .ok settled) (hvalue : value ≠ "")
    (hhead : value.toList.head? ≠ some '=') :
    self.short ('o' :: value.toList) = settled.setOutput (some value) := by
  have hne : value.toList ≠ [] := by simpa using hvalue
  have hequals : ∀ rest, value.toList ≠ '=' :: rest := by
    intro rest hrest
    rw [hrest] at hhead
    exact hhead rfl
  rw [short, h, String.ofList_toList]
  · rfl
  · exact hne
  · exact hequals

theorem short_joined (h : self.settle = .ok settled) :
    self.short ('o' :: '=' :: value.toList) = settled.setOutput (some value) := by
  rw [short, h, String.ofList_toList]
  rfl

theorem long_apart (h : self.settle = .ok settled) :
    self.long "output" none = .ok settled.awaitOutput := by
  simp only [long, h]
  rfl

theorem long_joined (h : self.settle = .ok settled) :
    self.long "output" (some value) = settled.setOutput (some value) := by
  simp only [long, h]
  rfl

/-- A flag that stands apart leaves its value to the next argument. -/
theorem takes_apart {name : String} (hplain : IsPlain value) (hvalue : value ≠ "")
    (hname : ∀ rest, self.read (name :: rest) =
      (awaitOutput ⟨input, none, verbose, none⟩).read rest) :
    self.Takes [name, value] ⟨input, some value, verbose, none⟩ := by
  refine ⟨⟨input, none, verbose, some (.output (some value))⟩, ?_, fun rest => ?_⟩
  · simp [settle, setOutput, hvalue]
  · rw [List.cons_append, List.singleton_append, hname]
    exact read_plain hplain rfl

/-- A cluster is read like its flags one by one. -/
theorem exists_short_outputFlag {clustered : Bool}
    (h : self.settle = .ok ⟨input, output, verbose, none⟩) (honce : clustered → verbose = false)
    (text : String) :
    ∃ after : Reading, after.settle = .ok ⟨input, output, clustered || verbose, none⟩ ∧
      ∀ next, after.short ('o' :: text.toList) = .ok next →
        ∀ rest, self.read ((outputFlag clustered ++ text) :: rest) = next.read rest := by
  cases clustered with
  | false =>
    have hshape : Shape.ofChars (outputFlag false ++ text).toList =
        .short ('o' :: text.toList) := by
      rw [String.toList_append]
      rfl
    exact ⟨self, h, fun next hnext rest => read_short hshape hnext⟩
  | true =>
    obtain rfl : verbose = false := honce rfl
    have hshape : Shape.ofChars (outputFlag true ++ text).toList =
        .short ('v' :: 'o' :: text.toList) := by
      rw [String.toList_append]
      rfl
    refine ⟨⟨input, output, true, none⟩, rfl, fun next hnext rest => read_short hshape ?_⟩
    rw [short, h]
    exact hnext

theorem takes_output {clustered : Bool} {group : List String}
    (h : self.settle = .ok ⟨input, none, verbose, none⟩) (honce : clustered → verbose = false)
    (hgroup : OutputGroup value clustered group) (hvalue : value ≠ "") :
    self.Takes group ⟨input, some value, clustered || verbose, none⟩ := by
  have hset : setOutput ⟨input, none, clustered || verbose, none⟩ (some value) =
      .ok ⟨input, some value, clustered || verbose, none⟩ := by
    simp [setOutput, hvalue]
  cases hgroup with
  | apart hplain =>
    obtain ⟨after, hafter, hread⟩ := exists_short_outputFlag h honce ""
    rw [String.append_empty] at hread
    exact takes_apart hplain hvalue (hread _ (short_apart hafter))
  | attached hhead =>
    obtain ⟨after, hafter, hread⟩ := exists_short_outputFlag h honce value
    exact ⟨_, rfl, hread _ ((short_attached hafter hvalue hhead).trans hset)⟩
  | joined =>
    obtain ⟨after, hafter, hread⟩ := exists_short_outputFlag h honce ("=" ++ value)
    rw [String.toList_append, ← String.append_assoc] at hread
    exact ⟨_, rfl, hread _ ((short_joined hafter).trans hset)⟩
  | longApart hplain =>
    have hshape : Shape.ofChars "--output".toList = .long "output" none := by decide
    exact takes_apart hplain hvalue fun _ => read_long hshape (long_apart h)
  | longJoined =>
    have hshape : Shape.ofChars ("--output=" ++ value).toList = .long "output" (some value) := by
      rw [String.toList_append]
      change Shape.long (String.ofList "output".toList) (some (String.ofList value.toList)) = _
      rw [String.ofList_toList, String.ofList_toList]
    exact ⟨_, rfl, fun _ => read_long hshape ((long_joined h).trans hset)⟩

end Output

/-- The arguments add what they ask for to what has been given, if nothing is given twice. -/
theorem read_of_asks {input' output' : Option String} {verbose' : Bool} {arguments : List String}
    (h : Asks input' output' verbose' arguments)
    (hsettle : self.settle = .ok ⟨input, output, verbose, none⟩)
    (hinput : input' ≠ some "") (houtput : output' ≠ some "")
    (hinputs : input'.isSome → input = none) (houtputs : output'.isSome → output = none)
    (hverbose : verbose' → verbose = false) :
    self.read arguments =
      .ok ⟨input.or input', output.or output', verbose || verbose', none⟩ := by
  induction h generalizing self input output verbose with
  | nothing => simpa [read] using hsettle
  | @input value output' verbose' rest hplain hrest ih =>
    obtain rfl := hinputs rfl
    have hvalue : value ≠ "" := fun hvalue => hinput (congrArg some hvalue)
    obtain ⟨next, hnext, hread⟩ := takes_input hsettle hplain hvalue
    rw [← List.singleton_append, hread,
      ih hnext (by simp) houtput (by simp) houtputs hverbose]
    rfl
  | @separated value =>
    obtain rfl := hinputs rfl
    have hvalue : value ≠ "" := fun hvalue => hinput (congrArg some hvalue)
    have hshape : Shape.ofChars "--".toList = .separator := rfl
    rw [read, hshape, Option.or_none, Bool.or_false]
    simp only [List.foldlM_cons, List.foldlM_nil, positional_of_settle hsettle]
    exact settle_input hvalue
  | @output value clustered input' verbose' group rest hgroup honce hrest ih =>
    obtain rfl := houtputs rfl
    have hvalue : value ≠ "" := fun hvalue => houtput (congrArg some hvalue)
    have hcluster : clustered → verbose = false := fun hclustered => hverbose (by simp [hclustered])
    obtain ⟨next, hnext, hread⟩ := takes_output hsettle hcluster hgroup hvalue
    have hrests : verbose' → (clustered || verbose) = false := by
      rintro rfl
      obtain rfl : verbose = false := hverbose (Bool.or_true clustered)
      simpa using honce
    rw [hread, ih hnext hinput (by simp) hinputs (by simp) hrests]
    simp [Bool.or_left_comm, Bool.or_assoc]
  | @verbose argument input' output' rest hargument hrest ih =>
    obtain rfl := hverbose rfl
    obtain ⟨next, hnext, hread⟩ := takes_verbose hsettle hargument
    rw [← List.singleton_append, hread, ih hnext hinput houtput hinputs houtputs (by simp)]
    simp

end Reading

end CommandLine

/-- A command line means the same in every spelling and order. Whatever the input, the
output and the choice of the log, every list of arguments that asks for them, each in
one of its spellings and in any order, gives just these options. -/
theorem Options.parse_of_asks {input : String} {output : Option String} {verbose : Bool}
    {arguments : List String} (hinput : input ≠ "") (houtput : output ≠ some "")
    (h : CommandLine.Asks (some input) output verbose arguments) :
    Options.parse arguments = .ok ⟨input, output.getD "schema.sql", verbose⟩ := by
  have hread : CommandLine.Reading.initial.read arguments =
      .ok ⟨some input, output, verbose, none⟩ := by
    simpa using CommandLine.Reading.read_of_asks h rfl (by simpa using hinput) houtput
      (fun _ => rfl) (fun _ => rfl) (fun _ => rfl)
  rw [Options.parse, hread]
  rfl

/-- An output with an equals sign in a cluster, and an input that looks like its flag. -/
theorem Options.parse_of_asks_behind_separator :
    CommandLine.Asks (some "-o") (some "=a=b") true ["-vo==a=b", "--", "-o"] ∧
      Options.parse ["-vo==a=b", "--", "-o"] = .ok ⟨"-o", "=a=b", true⟩ := by
  have hgroup : CommandLine.OutputGroup "=a=b" true ["-vo==a=b"] := .joined
  have hasks : CommandLine.Asks (some "-o") (some "=a=b") true ["-vo==a=b", "--", "-o"] :=
    .output hgroup (fun _ => rfl) .separated
  exact ⟨hasks, parse_of_asks (by decide) (by decide) hasks⟩

end SchemaScript
