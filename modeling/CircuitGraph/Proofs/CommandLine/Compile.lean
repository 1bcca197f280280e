import CircuitGraph.CommandLine.Run
import CircuitGraph.Proofs.Circom.Comment
import CircuitGraph.Proofs.Compile.Gating
import CircuitGraph.Proofs.Compile.Report
import CircuitGraph.Proofs.Graph.Encoding

/-!
# A compilation is all or nothing

The command that compiles a file has its inputs from outside: a configuration file, an input file
and the template name of the environment. `Prepares` says which configuration and which graph these
amount to. It fails when a file cannot be read, when its text is not what it should be, and when a
setting is out of bounds.

A run that is not prepared leaves nothing but a message behind (`run_eq_failed`). A run that is
prepared does what `concluded` says of the compilation (`run_eq_concluded`). So a run succeeds
exactly when it is prepared and no diagnostic is fatal, it writes a file only when it succeeds, and
what it then writes is the code and nothing else (`allOrNothing_of_invocation`).
-/

namespace CircuitGraph.CommandLine

open CircuitGraph.Json CircuitGraph.Text

/-! ## The template name of the environment -/

/-- The arguments of a compilation, with the template name of the environment where they give
none. -/
def CompileArgs.within (a : CompileArgs) (environment : Option String) : CompileArgs :=
  { a with templateName := a.templateName.or environment }

/-- A compilation that is read without an environment takes its template name from one. -/
theorem compileOf_within {r : Arguments} {a : CompileArgs}
    (h : compileOf none r = .ok (.compile a)) (environment : Option String) :
    compileOf environment r = .ok (.compile (a.within environment)) := by
  unfold compileOf at h ⊢
  split at h
  · cases h
    simp [CompileArgs.within]
  · cases h

/-- Only the arguments behind `compile` ask for a compilation. -/
theorem readInvocation_eq_compile {environment : Option String} {args : List String}
    {a : CompileArgs} (h : readInvocation environment args = .ok (.compile a)) :
    ∃ rest r, args = "compile" :: rest ∧ readArguments compileSpec rest = .ok r ∧
      compileOf environment r = .ok (.compile a) := by
  unfold readInvocation at h
  -- what the other words ask for is never a compilation
  split at h
  · cases h
  · rename_i rest
    obtain ⟨r, hread, hcompile⟩ := bind_eq_ok.1 h
    exact ⟨rest, r, rfl, hread, hcompile⟩
  · obtain ⟨r, -, htemplate⟩ := bind_eq_ok.1 h
    unfold templateOf at htemplate
    split at htemplate <;> cases htemplate
  · rename_i rest
    cases hread : readArguments templatesSpec rest with
    | error stop => simp [hread, Except.map] at h
    | ok r => simp [hread, Except.map] at h
  · cases h
  · split at h <;> cases h
  · split at h
    · cases h
    · split at h <;> cases h

/-- Arguments ask for a compilation when they are read as one. -/
theorem invocation_eq_compile_iff {environment : Option String} {args : List String}
    {a : CompileArgs} : invocation environment args = .ok (.compile a) ↔
      readInvocation environment args = .ok (.compile a) := by
  unfold invocation
  split <;> simp_all

/-- The environment adds its template name to the arguments of a compilation, and no more. -/
theorem invocation_within {args : List String} {a : CompileArgs}
    (h : invocation none args = .ok (.compile a)) (environment : Option String) :
    invocation environment args = .ok (.compile (a.within environment)) := by
  rw [invocation_eq_compile_iff] at h ⊢
  obtain ⟨rest, r, rfl, hread, hcompile⟩ := readInvocation_eq_compile h
  exact bind_eq_ok.2 ⟨r, hread, compileOf_within hcompile environment⟩

/-! ## What a run is given -/

/-- A configuration is the one of a file, which can be read and writes one with all settings within
bounds. Without a file it is the default one. -/
def Host.HoldsConfig (host : Host) (file : Option String) (config : Config) : Prop :=
  match file with
  | none => config = {}
  | some path => ∃ text, host.read path = .ok text ∧ Config.parse? text = some config ∧
      config.check = .ok ()

/-- A graph is the one of a file, which can be read and writes it, or writes a document of the
visual editor from which it is imported. -/
def Host.HoldsGraph (host : Host) (path : String) (format : Format) (g : Graph) : Prop :=
  ∃ text, host.read path = .ok text ∧
    match format with
    | .graph => Graph.parse? text = some g
    | .editor => ∃ document, Document.parse? text = some document ∧ document.toGraph = .ok g

/-- The configuration and the graph with which a run compiles. -/
structure Prepares (host : Host) (a : CompileArgs) (config : Config) (g : Graph) : Prop where
  /-- The configuration is that of the file. The template name of the arguments replaces its own,
  and that of the environment does when the arguments have none. -/
  configured : ∃ base, host.HoldsConfig a.config base ∧
    config = { base with
      templateName := (a.templateName.or host.templateName).getD base.templateName }
  /-- All settings are within bounds. -/
  accepted : config.check = .ok ()
  /-- The graph is that of the input file. -/
  drawn : host.HoldsGraph a.input a.format g

/-- A file is loaded when it can be read. -/
theorem Host.load_eq_ok {host : Host} {path text : String} :
    host.load path = .ok text ↔ host.read path = .ok text := by
  unfold load
  split <;> simp_all

/-- The configuration of a text is loaded when the text writes it and its settings are within
bounds. -/
theorem configLoad_eq_ok {text : String} {config : Config} :
    Config.load text = .ok config ↔ Config.parse? text = some config ∧ config.check = .ok () := by
  unfold Config.load
  constructor
  · intro h
    split at h
    · cases h
    · rename_i hparse
      split at h
      · rename_i hcheck
        cases h
        exact ⟨hparse, hcheck⟩
      · cases h
  · rintro ⟨hparse, hcheck⟩
    simp only [hparse, hcheck]

/-- The configuration of the file is loaded when there is one. -/
theorem Host.loadConfigFile_eq_ok {host : Host} {file : Option String} {config : Config} :
    host.loadConfigFile file = .ok config ↔ host.HoldsConfig file config := by
  cases file with
  | none =>
    rw [loadConfigFile, HoldsConfig, Except.ok.injEq]
    exact eq_comm
  | some path =>
    simp only [loadConfigFile, HoldsConfig, bind_eq_ok, load_eq_ok, ← configLoad_eq_ok]
    refine exists_congr fun text => and_congr_right fun _ => ?_
    cases Config.load text with
    | ok loaded => rw [Except.ok.injEq, pure_eq_ok]
    | error error => simp [throw, throwThe, MonadExceptOf.throw]

/-- The configuration of a compilation is loaded when the one of the file is accepted with the
template name that replaces its own. -/
theorem Host.loadConfig_eq_ok {host : Host} {a : CompileArgs} {config : Config} :
    host.loadConfig a = .ok config ↔
      (∃ base, host.HoldsConfig a.config base ∧
        config = { base with templateName := a.templateName.getD base.templateName }) ∧
      config.check = .ok () := by
  simp only [loadConfig, bind_eq_ok, loadConfigFile_eq_ok]
  constructor
  · rintro ⟨base, hbase, h⟩
    split at h
    · rename_i hcheck
      cases pure_eq_ok.1 h
      exact ⟨⟨base, hbase, rfl⟩, hcheck⟩
    · cases h
  · rintro ⟨⟨base, hbase, rfl⟩, hcheck⟩
    refine ⟨base, hbase, ?_⟩
    rw [hcheck]
    rfl

/-- The graph of the input file is loaded when there is one. -/
theorem Host.loadGraph_eq_ok {host : Host} {path : String} {format : Format} {g : Graph} :
    host.loadGraph path format = .ok g ↔ host.HoldsGraph path format g := by
  simp only [loadGraph, HoldsGraph, bind_eq_ok, load_eq_ok]
  refine exists_congr fun text => and_congr_right fun _ => ?_
  cases format with
  | graph =>
    cases hparse : Graph.parse? text with
    | none => simp [throw, throwThe, MonadExceptOf.throw]
    | some parsed => simp [pure_eq_ok]
  | editor =>
    cases hparse : Document.parse? text with
    | none => simp [throw, throwThe, MonadExceptOf.throw]
    | some document =>
      cases himport : document.toGraph with
      | ok imported => simp [pure_eq_ok, himport]
      | error error => simp [throw, throwThe, MonadExceptOf.throw, himport]

/-- A run has its configuration and its graph when it is prepared. -/
theorem prepares_iff {host : Host} {a : CompileArgs} {config : Config} {g : Graph} :
    Prepares host a config g ↔
      host.loadConfig (a.within host.templateName) = .ok config ∧
        host.loadGraph a.input a.format = .ok g := by
  rw [Host.loadConfig_eq_ok, Host.loadGraph_eq_ok]
  exact ⟨fun h => ⟨⟨h.configured, h.accepted⟩, h.drawn⟩, fun h => ⟨h.1.1, h.1.2, h.2⟩⟩

/-- A run is prepared in one way at most. -/
theorem Prepares.unique {host : Host} {a : CompileArgs} {config config' : Config} {g g' : Graph}
    (h : Prepares host a config g) (h' : Prepares host a config' g') :
    config = config' ∧ g = g' := by
  obtain ⟨hconfig, hgraph⟩ := prepares_iff.1 h
  obtain ⟨hconfig', hgraph'⟩ := prepares_iff.1 h'
  exact ⟨Except.ok.inj (hconfig.symm.trans hconfig'), Except.ok.inj (hgraph.symm.trans hgraph')⟩

/-! ## What a run does -/

/-- The code of a compilation without a fatal diagnostic ends with a line feed. -/
theorem getLast?_code_of_hasFatal {config : Config} {g : Graph} (hc : config.Accepted)
    (h : hasFatal (g.validate config) = false) :
    (g.compile config).code.toList.getLast? = some '\n' := by
  obtain ⟨u, -, hcode⟩ := g.exists_unit hc h
  have hlines : u.lines ≠ [] := by simp [Circom.SourceUnit.lines]
  rw [hcode, Circom.SourceUnit.text]
  exact getLast?_toList_joinLines hlines

/-- What is done with a compilation. -/
def concluded (host : Host) (a : CompileArgs) (o : Output) : Outcome :=
  if a.json then reported o
  else if o.isEmitted then host.deliver a.out (summary o) o.code
  else ⟨1, "", summary o ++ (blockedFailure o).text, none⟩

/-- A run with the arguments of a compilation compiles, with the template name of the
environment. -/
theorem run_eq_runCompile (host : Host) {args : List String} {a : CompileArgs}
    (h : invocation none args = .ok (.compile a)) :
    run host args = runCompile host (a.within host.templateName) := by
  rw [run, invocation_within h]
  rfl

/-- A run that is prepared compiles. -/
theorem run_eq_concluded {host : Host} {args : List String} {a : CompileArgs} {config : Config}
    {g : Graph} (h : invocation none args = .ok (.compile a)) (hp : Prepares host a config g) :
    run host args = concluded host a (g.compile config) := by
  obtain ⟨hconfig, hgraph⟩ := prepares_iff.1 hp
  have hinput : host.loadGraph (a.within host.templateName).input
      (a.within host.templateName).format = .ok g := hgraph
  rw [run_eq_runCompile host h, runCompile, hconfig, hinput]
  rfl

/-- A run that is not prepared fails. -/
theorem run_eq_failed {host : Host} {args : List String} {a : CompileArgs}
    (h : invocation none args = .ok (.compile a)) (hp : ¬ ∃ config g, Prepares host a config g) :
    ∃ f, run host args = failed f := by
  rw [run_eq_runCompile host h, runCompile]
  split
  · exact ⟨_, rfl⟩
  · rename_i config g hload
    refine absurd ⟨config, g, prepares_iff.2 ?_⟩ hp
    obtain ⟨_, hconfig, hrest⟩ := bind_eq_ok.1 hload
    obtain ⟨_, hgraph, hpair⟩ := bind_eq_ok.1 hrest
    cases pure_eq_ok.1 hpair
    exact ⟨hconfig, hgraph⟩

/-! ## What a run leaves behind -/

/-- A run delivers code: on its standard output, or as the content of a file and nothing on the
standard output. -/
def Outcome.Delivers (r : Outcome) (out : Option String) (code : String) : Prop :=
  match out with
  | none => r.stdout = code ∧ r.written = none
  | some path => r.stdout = "" ∧ r.written = some (path, code)

/-- The standard output of a run is the report of a compilation. -/
structure Outcome.Reports (r : Outcome) (o : Output) : Prop where
  /-- The standard output is the text of the report, ended by a line feed. -/
  text : r.stdout = o.report.pretty ++ "\n"
  /-- When it is read, the standard output says the code, the diagnostics and the metrics. -/
  read : (Value.parse r.stdout >>= Value.record? Output.reportedFields) = some o.members

/-- The standard output is the report of one compilation only. -/
theorem Outcome.Reports.unique {r : Outcome} {o o' : Output} (h : r.Reports o)
    (h' : r.Reports o') : o = o' :=
  Output.members_injective (Option.some.inj (h.read.symm.trans h'.read))

/-- A report goes to the standard output only. -/
theorem concluded_of_json (host : Host) {a : CompileArgs} (hjson : a.json = true) (o : Output) :
    (concluded host a o).exit = (if o.isEmitted then 0 else 1) ∧
      (concluded host a o).Reports o ∧ (concluded host a o).written = none := by
  have hconcluded : concluded host a o = reported o := if_pos hjson
  have hstdout : (reported o).stdout = o.report.pretty ++ "\n" := by
    rw [reported]
    split_ifs <;> rfl
  rw [hconcluded]
  refine ⟨?_, ⟨hstdout, ?_⟩, ?_⟩
  · rw [reported]
    split_ifs <;> rfl
  · rw [hstdout, o.parse_report]
    exact o.record?_report
  · rw [reported]
    split_ifs <;> rfl

/-- Source that ends with a line feed is delivered as it is, unless it cannot be written. -/
theorem concluded_of_emitted {host : Host} {a : CompileArgs} (hjson : a.json = false) {o : Output}
    (ho : o.isEmitted = true) (hends : o.code.toList.getLast? = some '\n')
    (hwrite : ∀ path, a.out = some path → host.writeFault path = none) :
    (concluded host a o).exit = 0 ∧ (concluded host a o).Delivers a.out o.code := by
  have hconcluded : concluded host a o = host.deliver a.out (summary o) o.code := by
    rw [concluded, if_neg (by simp [hjson]), if_pos ho]
  rw [hconcluded]
  cases hout : a.out with
  | none =>
    -- the code ends its last line, so nothing is added to it
    simp [Host.deliver, Outcome.Delivers, hends]
  | some path =>
    simp [Host.deliver, Outcome.Delivers, hwrite path hout]

/-- Nothing is delivered when the compilation is blocked. -/
theorem concluded_of_blocked (host : Host) {a : CompileArgs} (hjson : a.json = false) {o : Output}
    (ho : o.isEmitted = false) : (concluded host a o).exit = 1 ∧
      (concluded host a o).stdout = "" ∧ (concluded host a o).written = none := by
  have hconcluded : concluded host a o =
      ⟨1, "", summary o ++ (blockedFailure o).text, none⟩ := by
    rw [concluded, if_neg (by simp [hjson]), if_neg (by simp [ho])]
  rw [hconcluded]
  exact ⟨rfl, rfl, rfl⟩

/-- What a run that compiles a file leaves behind: all that was asked for, or nothing. -/
structure AllOrNothing (host : Host) (a : CompileArgs) (r : Outcome) : Prop where
  /-- The run succeeds when its files and its template name give a configuration and a graph, and
  the compilation of the graph shows no fatal diagnostic. -/
  exit_eq_zero_iff : r.exit = 0 ↔ ∃ config g, Prepares host a config g ∧
    hasFatal (g.compile config).diagnostics = false
  /-- The exit code of a run that does not succeed is one. -/
  exit_eq_one : r.exit ≠ 0 → r.exit = 1
  /-- When it succeeds without a report, the code is delivered, and nothing else. -/
  delivers : ∀ config g, Prepares host a config g → r.exit = 0 → a.json = false →
    r.Delivers a.out (g.compile config).code
  /-- When it fails, no file is written. -/
  written_eq_none : r.exit ≠ 0 → r.written = none
  /-- When it fails, something is printed only if it is a report and there is one to print. -/
  stdout_eq_empty : r.exit ≠ 0 → r.stdout ≠ "" →
    a.json = true ∧ ∃ config g, Prepares host a config g
  /-- A report is never written to a file. -/
  written_of_json : a.json = true → r.written = none
  /-- The report that is printed is that of the compilation. -/
  reports : ∀ config g, Prepares host a config g → a.json = true → r.Reports (g.compile config)
  /-- The report that is printed is that of no other compilation, so the outcome of the compilation
  can be told from it. -/
  reports_unique : ∀ config g, Prepares host a config g → a.json = true →
    ∀ o, r.Reports o → o = g.compile config

/-- A run that fails before it compiles leaves nothing behind. -/
theorem allOrNothing_failed {host : Host} {a : CompileArgs}
    (hp : ¬ ∃ config g, Prepares host a config g) (f : Failure) :
    AllOrNothing host a (failed f) where
  exit_eq_zero_iff := by
    refine ⟨fun h => absurd h (by decide : (1 : Nat) ≠ 0), ?_⟩
    rintro ⟨config, g, h, -⟩
    exact absurd ⟨config, g, h⟩ hp
  exit_eq_one _ := rfl
  delivers config g h := absurd ⟨config, g, h⟩ hp
  written_eq_none _ := rfl
  stdout_eq_empty _ h := absurd rfl h
  written_of_json _ := rfl
  reports config g h := absurd ⟨config, g, h⟩ hp
  reports_unique config g h := absurd ⟨config, g, h⟩ hp

section

variable {host : Host} {a : CompileArgs} {config : Config} {g : Graph}
  (hp : Prepares host a config g)

include hp

/-- A run that is prepared can succeed only with what it is prepared with. -/
theorem exists_prepares_iff : (∃ config' g', Prepares host a config' g' ∧
    hasFatal (g'.compile config').diagnostics = false) ↔ (g.compile config).isEmitted = true := by
  have hc := Config.accepted_of_check hp.accepted
  rw [g.isEmitted_compile hc, ← g.diagnostics_compile hc]
  constructor
  · rintro ⟨config', g', hp', h⟩
    obtain ⟨rfl, rfl⟩ := hp.unique hp'
    exact h
  · exact fun h => ⟨config, g, hp, h⟩

/-- A run that prints a report prints it whether or not the compilation is blocked. -/
theorem allOrNothing_of_json (hjson : a.json = true) :
    AllOrNothing host a (concluded host a (g.compile config)) := by
  obtain ⟨hexit, hreports, hwritten⟩ := concluded_of_json host hjson (g.compile config)
  exact
    { exit_eq_zero_iff := by
        rw [exists_prepares_iff hp, hexit]
        split_ifs with ho <;> simp [ho]
      exit_eq_one := by
        rw [hexit]
        split_ifs <;> simp
      delivers := fun _ _ _ _ h => Bool.noConfusion (hjson.symm.trans h)
      written_eq_none := fun _ => hwritten
      stdout_eq_empty := fun _ _ => ⟨hjson, config, g, hp⟩
      written_of_json := fun _ => hwritten
      reports := by
        intro config' g' hp' _
        obtain ⟨rfl, rfl⟩ := hp.unique hp'
        exact hreports
      reports_unique := by
        intro config' g' hp' _ o ho
        obtain ⟨rfl, rfl⟩ := hp.unique hp'
        exact ho.unique hreports }

/-- A run that delivers code leaves all of it. -/
theorem allOrNothing_of_emitted (hjson : a.json = false)
    (ho : (g.compile config).isEmitted = true)
    (hwrite : ∀ path, a.out = some path → host.writeFault path = none) :
    AllOrNothing host a (concluded host a (g.compile config)) := by
  have hc := Config.accepted_of_check hp.accepted
  have hends := getLast?_code_of_hasFatal hc ((g.isEmitted_compile hc).1 ho)
  obtain ⟨hexit, hdelivers⟩ := concluded_of_emitted hjson ho hends hwrite
  exact
    { exit_eq_zero_iff := by simp [exists_prepares_iff hp, ho, hexit]
      exit_eq_one := fun h => absurd hexit h
      delivers := by
        intro config' g' hp' _ _
        obtain ⟨rfl, rfl⟩ := hp.unique hp'
        exact hdelivers
      written_eq_none := fun h => absurd hexit h
      stdout_eq_empty := fun h => absurd hexit h
      written_of_json := fun h => Bool.noConfusion (hjson.symm.trans h)
      reports := fun _ _ _ h => Bool.noConfusion (hjson.symm.trans h)
      reports_unique := fun _ _ _ h => Bool.noConfusion (hjson.symm.trans h) }

/-- A run without a report leaves nothing when the compilation is blocked. -/
theorem allOrNothing_of_blocked (hjson : a.json = false)
    (ho : (g.compile config).isEmitted = false) :
    AllOrNothing host a (concluded host a (g.compile config)) := by
  obtain ⟨hexit, hstdout, hwritten⟩ := concluded_of_blocked host hjson ho
  exact
    { exit_eq_zero_iff := by simp [exists_prepares_iff hp, ho, hexit]
      exit_eq_one := fun _ => hexit
      delivers := fun _ _ _ h => absurd (hexit.symm.trans h) (by decide)
      written_eq_none := fun _ => hwritten
      stdout_eq_empty := fun _ h => absurd hstdout h
      written_of_json := fun _ => hwritten
      reports := fun _ _ _ h => Bool.noConfusion (hjson.symm.trans h)
      reports_unique := fun _ _ _ h => Bool.noConfusion (hjson.symm.trans h) }

end

/-- **All or nothing.** A run that compiles a file leaves all that was asked for, or nothing, as
long as the file that is asked for can be written. -/
theorem allOrNothing_of_invocation (host : Host) (args : List String) (a : CompileArgs)
    (h : invocation none args = .ok (.compile a))
    (hwrite : ∀ path, a.out = some path → host.writeFault path = none) :
    AllOrNothing host a (run host args) := by
  by_cases hprepared : ∃ config g, Prepares host a config g
  · obtain ⟨config, g, hp⟩ := hprepared
    rw [run_eq_concluded h hp]
    cases hjson : a.json with
    | true => exact allOrNothing_of_json hp hjson
    | false =>
      cases ho : (g.compile config).isEmitted with
      | true => exact allOrNothing_of_emitted hp hjson ho hwrite
      | false => exact allOrNothing_of_blocked hp hjson ho
  · obtain ⟨f, hfailed⟩ := run_eq_failed h hprepared
    rw [hfailed]
    exact allOrNothing_failed hprepared f

/-- The surroundings of a run: the environment has a template name, there is one file, which holds a
graph of the gallery, and everything can be written. -/
def exhibitHost : Host where
  templateName := some "AgeCheck"
  read path :=
    if path = "age.json" then .ok Exhibit.ageVerification.graph.pretty
    else .error "No such file or directory (os error 2)"
  writeFault _ := none

/-- The graph is compiled into a file, under the template name of the environment. -/
theorem allOrNothing_exhibit :
    let args := ["compile", "age.json", "--out", "age.circom"]
    let a : CompileArgs := ⟨"age.json", .graph, none, none, some "age.circom", false⟩
    let config : Config := { templateName := "AgeCheck" }
    let r := run exhibitHost args
    invocation none args = .ok (.compile a) ∧
      (∀ path, a.out = some path → exhibitHost.writeFault path = none) ∧
      AllOrNothing exhibitHost a r ∧ r.exit = 0 ∧ r.stdout = "" ∧
      r.written = some ("age.circom", (Exhibit.ageVerification.graph.compile config).code) := by
  intro args a config r
  let g := Exhibit.ageVerification.graph
  have hargs : invocation none args = .ok (.compile a) := rfl
  have hwrite : ∀ path, a.out = some path → exhibitHost.writeFault path = none := fun _ _ => rfl
  have hr : AllOrNothing exhibitHost a r :=
    allOrNothing_of_invocation exhibitHost args a hargs hwrite
  have hparse : Graph.parse? g.pretty = some g := by
    rw [Graph.parse?, Graph.pretty, Value.parse_pretty g.isTextual_toJson]
    exact g.ofJson?_toJson
  have hc : ({ templateName := "AgeCheck" } : Config).check = .ok () := rfl
  have hp : Prepares exhibitHost a config g := ⟨⟨{}, rfl, rfl⟩, hc, g.pretty, rfl, hparse⟩
  have hfatal : hasFatal (g.compile config).diagnostics = false := by
    rw [g.diagnostics_compile (Config.accepted_of_check hp.accepted)]
    cbv
  have hexit : r.exit = 0 := hr.exit_eq_zero_iff.2 ⟨config, g, hp, hfatal⟩
  obtain ⟨hstdout, hwritten⟩ := hr.delivers config g hp hexit rfl
  exact ⟨hargs, hwrite, hr, hexit, hstdout, hwritten⟩

end CircuitGraph.CommandLine
