import EngineHeader.Proofs.CommandLine.Spelling
import EngineHeader.Proofs.Config.RoundTrip
import EngineHeader.Proofs.Directive.Tested
import EngineHeader.Proofs.Header.Message

/-!
# Files and options

It makes no difference whether a header is configured by a file or by options
(`CommandLine.run_of_configures`).  A run gives what the header reads as, and this depends on the
configuration that the file and the options make together.  The options replace the dialect, they
can only turn C++ on, and they add names.  Of the names only the set counts.

The file holds the JSON of a configuration in any layout of white space, or there is no file and the
default is meant.  The options are asked for in any order and spelled in any of their ways.
-/

namespace EngineHeader

/-- Configurations of one dialect with the same names read a header alike. -/
theorem Header.read_eq_of_mem {c c' : Config} (hdialect : c.dialect = c'.dialect)
    (hnames : ∀ name, name ∈ c.names ↔ name ∈ c'.names) (source : String) :
    read c source = read c' source := by
  have hflat : flatten source c.names = flatten source c'.names :=
    flatten_eq_of_tested fun _ _ name _ => hnames name
  rw [read, read, hflat, hdialect]

namespace CommandLine

/-- The configuration that the options start from: one whose JSON is in their file, or the default
where they have none. -/
inductive StartsFrom (file : String → Option String) : Option String → Config → Prop where
  | default : StartsFrom file none default
  | file {l : Json.Layout} {name : String} {f : Config} :
    l.IsBlank → file name = some (Json.write l 0 "" f.toJson) → StartsFrom file (some name) f

/-- The name of the header that the options have, and its text. -/
inductive HeaderIs (file : String → Option String) (stdin : String) :
    Option String → String → String → Prop where
  | absent : HeaderIs file stdin none "<stdin>" stdin
  | hyphen : HeaderIs file stdin (some "-") "<stdin>" stdin
  | file {name source : String} :
    name ≠ "-" → file name = some source → HeaderIs file stdin (some name) name source

/-- The options make the one configuration into the other, which may list its names in another
order and another number of times. -/
structure Options.Configures (o : Options) (f c : Config) : Prop where
  dialect : o.dialect?.getD f.dialect = c.dialect
  cplusplus : (f.cplusplus || o.cplusplus) = c.cplusplus
  defines (name : String) : name ∈ f.defines ∨ name ∈ o.defines ↔ name ∈ c.defines

variable {file : String → Option String} {stdin name source : String} {o : Options} {f c : Config}

theorem baseConfig_of_startsFrom (h : StartsFrom file o.config? f) :
    o.baseConfig file = .ok f := by
  rw [Options.baseConfig]
  cases hconfig : o.config? with
  | none =>
    rw [hconfig] at h
    cases h
    rfl
  | some path =>
    rw [hconfig] at h
    cases h with
    | file hl hfile =>
      dsimp only
      rw [hfile]
      dsimp only
      rw [Config.ofText_write hl f]

theorem source_of_headerIs (h : HeaderIs file stdin o.header? name source) :
    o.source file stdin = .ok (name, source) := by
  rw [Options.source, Options.headerFile?]
  cases hheader : o.header? with
  | none =>
    rw [hheader] at h
    cases h
    rfl
  | some path =>
    rw [hheader] at h
    cases h with
    | hyphen => rfl
    | file hne hfile => simp [Option.filter, hne, hfile]

theorem read_applyTo (h : o.Configures f c) (source : String) :
    Header.read (o.applyTo f) source = Header.read c source := by
  refine Header.read_eq_of_mem h.dialect (fun name => ?_) source
  rw [Config.mem_names, Config.mem_names, ← h.cplusplus, ← h.defines name, ← List.mem_append]
  rfl

theorem execute_of_configures (hstart : StartsFrom file o.config? f)
    (hheader : HeaderIs file stdin o.header? name source) (h : o.Configures f c) :
    o.execute file stdin = match Header.read c source with
      | .ok header => .ok (header.toJson.pretty ++ "\n")
      | .error e => .error (name ++ ":" ++ e.message) := by
  rw [Options.execute, baseConfig_of_startsFrom hstart, source_of_headerIs hheader]
  simp only [bind, Except.bind]
  rw [read_applyTo h source]
  cases Header.read c source with
  | ok header => rfl
  | error e => rfl

/-- A header is dumped alike however the configuration is given, by a file, by options or by both.
The exit code is 0 if the header can be read, and its JSON is printed.  Otherwise the exit code is
1, and one line says what is wrong with the header. -/
theorem run_of_configures {rs : List Request} {arguments : List String}
    (hspells : Spells rs arguments) (hcollects : o.Collects rs)
    (hstart : StartsFrom file o.config? f) (hheader : HeaderIs file stdin o.header? name source)
    (h : o.Configures f c) :
    (∀ header, Header.read c source = .ok header →
      run arguments file stdin = .success (header.toJson.pretty ++ "\n") ∧
        (run arguments file stdin).exitCode = 0) ∧
    ∀ e, Header.read c source = .error e →
      run arguments file stdin = .failure ("Error: " ++ (name ++ ":" ++ e.message)) ∧
        (run arguments file stdin).exitCode = 1 ∧ OneLine e.message := by
  have harguments : Options.ofArguments arguments = some o :=
    Options.ofArguments_eq_some_iff.mpr ⟨rs, hspells, hcollects⟩
  have hexecute := execute_of_configures hstart hheader h
  constructor
  · intro header hread
    have hrun : run arguments file stdin = .success (header.toJson.pretty ++ "\n") := by
      rw [run, harguments]
      dsimp only
      rw [hexecute, hread]
    exact ⟨hrun, by rw [hrun]; rfl⟩
  · intro e hread
    have hrun : run arguments file stdin = .failure ("Error: " ++ (name ++ ":" ++ e.message)) := by
      rw [run, harguments]
      dsimp only
      rw [hexecute, hread]
    exact ⟨hrun, by rw [hrun]; rfl, Header.oneLine_message_of_read hread⟩

/-- One name comes from a file and one from the options, which also turn C++ on. -/
theorem run_of_configures_both :
    Spells [.define "A", .config "c", .cplusplus] ["-DA", "--config", "c", "--cplusplus"] ∧
      Options.Collects ⟨none, some "c", none, true, ["A"]⟩ [.define "A", .config "c", .cplusplus] ∧
      StartsFrom (fun _ => some (Json.compact (Config.toJson ⟨.native, false, ["B"]⟩))) (some "c")
        ⟨.native, false, ["B"]⟩ ∧
      Options.Configures ⟨none, some "c", none, true, ["A"]⟩ ⟨.native, false, ["B"]⟩
        ⟨.native, true, ["A", "B", "A"]⟩ ∧
      Header.read ⟨.native, true, ["A", "B", "A"]⟩ "#ifdef A\ntypedef B C;\n#endif\n" =
        .ok ⟨[.typeAlias ⟨⟨false, "B", 0⟩, "C"⟩]⟩ ∧
      run ["-DA", "--config", "c", "--cplusplus"]
          (fun _ => some (Json.compact (Config.toJson ⟨.native, false, ["B"]⟩)))
          "#ifdef A\ntypedef B C;\n#endif\n" =
        .success ((Header.mk [.typeAlias ⟨⟨false, "B", 0⟩, "C"⟩]).toJson.pretty ++ "\n") := by
  have hspells : Spells [.define "A", .config "c", .cplusplus]
      ["-DA", "--config", "c", "--cplusplus"] :=
    .cons (.defineJoined (by decide) (by decide)) <|
      .cons (.configNext (.inr (by decide)) (by decide)) <| .cons .cplusplus .nil
  have hcollects : Options.Collects ⟨none, some "c", none, true, ["A"]⟩
      [.define "A", .config "c", .cplusplus] := ⟨rfl, rfl, rfl, rfl, rfl⟩
  have hstart : StartsFrom (fun _ => some (Json.compact (Config.toJson ⟨.native, false, ["B"]⟩)))
      (some "c") ⟨.native, false, ["B"]⟩ := .file Json.isBlank_compact rfl
  have hconfigures : Options.Configures ⟨none, some "c", none, true, ["A"]⟩
      ⟨.native, false, ["B"]⟩ ⟨.native, true, ["A", "B", "A"]⟩ :=
    ⟨rfl, rfl, fun name => by simp [or_comm]⟩
  have hread : Header.read ⟨.native, true, ["A", "B", "A"]⟩ "#ifdef A\ntypedef B C;\n#endif\n" =
      .ok ⟨[.typeAlias ⟨⟨false, "B", 0⟩, "C"⟩]⟩ := by cbv
  exact ⟨hspells, hcollects, hstart, hconfigures, hread,
    ((run_of_configures hspells hcollects hstart .absent hconfigures).1 _ hread).1⟩

end CommandLine

end EngineHeader
