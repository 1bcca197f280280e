import CircuitGraph.Proofs.Circom.Layout
import CircuitGraph.Proofs.Compile.Gating

/-!
# Emitted source is well formed

`SourceUnit.WellFormed` is what a reader of the text relies on before looking at a single statement:
the text splits into the planned lines, the first line gives a version, includes stay between their
quotation marks, and one template with a body whose braces match is followed by one main component.

Labels and ids cannot spoil this, for they only come in through the name table. Of the
configuration, `Config.check` looks at the version and at the template name, but it does not look at
the directory of the included files, and it takes any identifier for a template name. So the main
statement has two conditions: the directory may stand between quotation marks, and the name is not
reserved. Neither can be dropped (`rangeVerification_not_wellFormed`).
-/

namespace CircuitGraph.Circom

open CircuitGraph.Text

/-- The line that opens the template. -/
def SourceUnit.templateLine (u : SourceUnit) : String := s!"template {u.template}() \x7b"

/-- A text that is one well-formed unit, with nothing in it but the lines that were planned. -/
structure SourceUnit.WellFormed (u : SourceUnit) : Prop where
  /-- The text splits into the planned lines; the last one is ended as well. -/
  lines : splitLines u.text = u.lines ++ [""]
  /-- The first line gives the version: numbers between dots. -/
  version : ∃ parts : List String, parts ≠ [] ∧ (∀ part ∈ parts, isDigits part = true) ∧
    u.version = ".".intercalate parts ∧ u.lines.head? = some s!"pragma circom {u.version};"
  /-- Every include stands on a line of its own, and its path stays between the quotation marks. -/
  includes : ∀ line ∈ u.lines, startsWith "include" line = true →
    ∃ path, line = s!"include \"{path}\";" ∧ isQuotable path = true
  /-- One line opens a template. -/
  opened : u.lines.filter (startsWith "template") = [u.templateLine]
  /-- The template is closed after a body that closes all of its own braces; an empty line and the
  line of the main component follow. -/
  closed : u.lines = u.headLines ++ u.templateLine :: u.body.map Line.text ++
    ["\x7d", "", u.mainLine] ∧ Balanced u.body
  /-- One line makes a main component, the last one. -/
  main : u.lines.filter (startsWith "component main") = [u.mainLine]
  /-- The main component is an instance of the template; a list of its public inputs, if there is
  one, consists of identifiers. -/
  mainLine : u.mainLine = s!"component main = {u.template}();" ∨
    ∃ publics : List String, publics ≠ [] ∧ (∀ name ∈ publics, isIdentifier name = true) ∧
      let names := ", ".intercalate publics
      u.mainLine = s!"component main \x7bpublic [{names}]\x7d = {u.template}();"
  /-- The template has an identifier for a name. -/
  identifier : isIdentifier u.template = true
  /-- The name of the template is not reserved. -/
  not_reserved : u.template ∉ reservedNames

/-! ## First characters -/

/-- A version line begins with a `p`. -/
theorem head?_versionLine (version : String) :
    (s!"pragma circom {version};").toList.head? = some 'p' := by
  obtain ⟨rest, hrest⟩ := toList_versionLine version
  rw [hrest]
  rfl

/-- An include line begins with an `i`. -/
theorem head?_includeLine (path : String) :
    (s!"include \"{path}\";").toList.head? = some 'i' := by
  change (("include \"" ++ path) ++ "\";").toList.head? = some 'i'
  rw [String.toList_append, String.toList_append]
  rfl

/-- An include line begins with the word. -/
theorem startsWith_includeLine (path : String) :
    startsWith "include" s!"include \"{path}\";" = true := by
  rw [startsWith, List.isPrefixOf_iff_prefix]
  change "include".toList <+: (("include \"" ++ path) ++ "\";").toList
  rw [String.toList_append, String.toList_append]
  exact ⟨_, rfl⟩

/-- A line of a body is empty or indented. -/
theorem Line.head?_text (line : Line) :
    line.text.toList.head? = none ∨ line.text.toList.head? = some ' ' := by
  have hindent (s : String) : (indent ++ s).toList.head? = some ' ' := by
    rw [String.toList_append]
    rfl
  cases line with
  | blank => exact .inl rfl
  | _ => exact .inr (hindent _)

namespace SourceUnit

variable (u : SourceUnit)

/-- The line that opens the template begins with a `t`. -/
theorem head?_templateLine : u.templateLine.toList.head? = some 't' := by
  change (("template " ++ u.template) ++ "() \x7b").toList.head? = some 't'
  rw [String.toList_append, String.toList_append]
  rfl

/-- The main component stands on a line that begins with these words. -/
theorem exists_mainLine : ∃ rest, u.mainLine = "component main" ++ rest := by
  have hplain : toString "component main = " = "component main" ++ " = " := rfl
  have hlisted : toString "component main \x7bpublic [" = "component main" ++ " \x7bpublic [" := rfl
  unfold mainLine
  split
  · exact ⟨" = " ++ (u.template ++ "();"), by simp only [hplain, String.append_assoc]; rfl⟩
  · let names := ", ".intercalate u.publics
    refine ⟨" \x7bpublic [" ++ (names ++ ("]\x7d = " ++ (u.template ++ "();"))), ?_⟩
    simp only [hlisted, String.append_assoc]
    rfl

/-- The lines of a unit: those before the template, the body between the lines that open and close
the template, an empty line, and the line of the main component. -/
theorem lines_eq : u.lines = u.headLines ++ u.templateLine :: u.body.map Line.text ++
    ["\x7d", "", u.mainLine] := by
  rw [map_text_body]
  rfl

/-- A line before the template gives the version, includes a file or is empty. -/
theorem mem_headLines {line : String} (h : line ∈ u.headLines) :
    line = s!"pragma circom {u.version};" ∨ line = "" ∨
      ∃ path ∈ u.includes, line = s!"include \"{path}\";" := by
  unfold headLines at h
  rcases List.mem_cons.1 h with rfl | h
  · exact .inl rfl
  · rcases List.mem_cons.1 h with rfl | h
    · exact .inr (.inl rfl)
    · split at h
      · cases h
      · rcases List.mem_append.1 h with h | h
        · obtain ⟨path, hpath, rfl⟩ := List.mem_map.1 h
          exact .inr (.inr ⟨path, hpath, rfl⟩)
        · exact .inr (.inl (List.mem_singleton.1 h))

/-- The line of the main component begins with a `c`. -/
theorem head?_mainLine : u.mainLine.toList.head? = some 'c' := by
  obtain ⟨rest, hrest⟩ := u.exists_mainLine
  rw [hrest, String.toList_append]
  rfl

/-- The line that opens the template stays on its line when the name of the template is an
identifier. -/
theorem isOneLine_templateLine (htemplate : isIdentifier u.template = true) :
    isOneLine u.templateLine = true := by
  simp +decide [templateLine, isOneLine_of_isPlain (isPlain_of_isIdentifier htemplate)]

/-- The line of the main component stays on its line when it is made of identifiers. -/
theorem isOneLine_mainLine (htemplate : isIdentifier u.template = true)
    (hpublics : ∀ name ∈ u.publics, isIdentifier name = true) : isOneLine u.mainLine = true := by
  have hname := isOneLine_of_isPlain (isPlain_of_isIdentifier htemplate)
  have hnames : isPlain (", ".intercalate u.publics) = true :=
    isPlain_intercalate (by decide) fun name hname => isPlain_of_isIdentifier (hpublics name hname)
  unfold mainLine
  split <;> simp +decide [hname, isOneLine_of_isPlain hnames]

/-- The lines before the template are empty or begin with a `p` or an `i`. -/
theorem head?_headLines {line : String} (h : line ∈ u.headLines) :
    line.toList.head? = none ∨ line.toList.head? = some 'p' ∨ line.toList.head? = some 'i' := by
  obtain rfl | rfl | ⟨path, -, rfl⟩ := u.mem_headLines h
  · exact .inr (.inl (head?_versionLine _))
  · exact .inl rfl
  · exact .inr (.inr (head?_includeLine _))

/-- Words that begin with none of the characters of the lines before the template and in the body
only begin lines around the body. -/
theorem filter_lines {words : String} (hwords : words.toList ≠ [])
    (hhead : ∀ c ∈ [none, some 'p', some 'i', some ' '], words.toList.head? ≠ c) :
    u.lines.filter (startsWith words) =
      [u.templateLine, "\x7d", u.mainLine].filter (startsWith words) := by
  have hbefore : u.headLines.filter (startsWith words) = [] := by
    refine filter_startsWith_eq_nil hwords fun line hline heq => ?_
    rcases u.head?_headLines hline with h | h | h
    · exact hhead _ (by simp) (heq.symm.trans h)
    · exact hhead _ (by simp) (heq.symm.trans h)
    · exact hhead _ (by simp) (heq.symm.trans h)
  have hbody : (u.body.map Line.text).filter (startsWith words) = [] := by
    refine filter_startsWith_eq_nil hwords fun line hline heq => ?_
    obtain ⟨line, -, rfl⟩ := List.mem_map.1 hline
    rcases line.head?_text with h | h
    · exact hhead _ (by simp) (heq.symm.trans h)
    · exact hhead _ (by simp) (heq.symm.trans h)
  have hempty : startsWith words "" = false := by
    refine startsWith_of_head?_ne hwords fun heq => ?_
    exact hhead none (by simp) heq.symm
  rw [lines_eq, List.filter_append, List.filter_append, hbefore, List.filter_cons, hbody]
  simp only [List.filter_cons, hempty]
  split <;> rfl

/-- One line opens the template. -/
theorem filter_template : u.lines.filter (startsWith "template") = [u.templateLine] := by
  have htemplate : startsWith "template" u.templateLine = true := by
    rw [startsWith, List.isPrefixOf_iff_prefix]
    change "template".toList <+: (("template " ++ u.template) ++ "() \x7b").toList
    rw [String.toList_append, String.toList_append]
    exact ⟨_, rfl⟩
  have hmain : startsWith "template" u.mainLine = false :=
    startsWith_of_head?_ne (by decide) (by rw [head?_mainLine]; decide)
  have hclosing : startsWith "template" "\x7d" = false := rfl
  rw [u.filter_lines (by decide) (by decide)]
  simp [htemplate, hmain, hclosing]

/-- One line makes the main component. -/
theorem filter_main : u.lines.filter (startsWith "component main") = [u.mainLine] := by
  have hmain : startsWith "component main" u.mainLine = true := by
    obtain ⟨rest, hrest⟩ := u.exists_mainLine
    rw [startsWith, List.isPrefixOf_iff_prefix, hrest, String.toList_append]
    exact ⟨_, rfl⟩
  have htemplate : startsWith "component main" u.templateLine = false :=
    startsWith_of_head?_ne (by decide) (by rw [head?_templateLine]; decide)
  have hclosing : startsWith "component main" "\x7d" = false := rfl
  rw [u.filter_lines (by decide) (by decide)]
  simp [htemplate, hmain, hclosing]

/-- One line for each path includes a file. -/
theorem filter_include :
    u.lines.filter (startsWith "include") = u.includes.map fun path => s!"include \"{path}\";" := by
  have hhead : u.headLines.filter (startsWith "include") =
      u.includes.map fun path => s!"include \"{path}\";" := by
    have hversion : ¬ startsWith "include" s!"pragma circom {u.version};" = true :=
      Bool.eq_false_iff.1 (startsWith_of_head?_ne (by decide) (by rw [head?_versionLine]; decide))
    have hempty : ¬ startsWith "include" "" = true := by decide
    have hincludes : (u.includes.map fun path => s!"include \"{path}\";").filter
        (startsWith "include") = u.includes.map fun path => s!"include \"{path}\";" :=
      List.filter_eq_self.2 (List.forall_mem_map.2 fun path _ => startsWith_includeLine path)
    rw [headLines, List.filter_cons_of_neg hversion, List.filter_cons_of_neg hempty]
    split
    · rename_i hnil
      rw [List.isEmpty_iff.1 hnil, List.filter_nil]
    · rw [List.filter_append, hincludes, List.filter_cons_of_neg hempty, List.filter_nil,
        List.append_nil]
  have htail : (u.templateLine :: u.body.map Line.text ++ ["\x7d", "", u.mainLine]).filter
      (startsWith "include") = [] := by
    refine filter_startsWith_eq_nil (by decide) fun line hline => ?_
    simp only [List.mem_append, List.mem_cons, List.mem_map, List.not_mem_nil, or_false] at hline
    obtain (rfl | ⟨line, -, rfl⟩) | rfl | rfl | rfl := hline
    · rw [head?_templateLine]
      decide
    · rcases line.head?_text with h | h
      · rw [h]
        decide
      · rw [h]
        decide
    · decide
    · decide
    · rw [head?_mainLine]
      decide
  rw [lines_eq, List.append_assoc, List.filter_append, hhead, htail, List.append_nil]

end SourceUnit

/-! ## Parts -/

/-- A version that is numbers between dots is plain. -/
theorem isPlain_of_isDottedDigits {version : String}
    (h : isDottedDigits version.toList = true) : isPlain version = true := by
  refine List.all_eq_true.2 fun c hc => ?_
  rcases isDigit_of_mem_isDottedDigits h hc with hdigit | rfl
  · exact isPlainChar_of_isDigit hdigit
  · rfl

/-- The lines from the template on stay on their lines when the body is plain and the names are
identifiers. -/
theorem SourceUnit.isOneLine_template {u : SourceUnit} (htemplate : isIdentifier u.template = true)
    (hbody : ∀ line ∈ u.body, line.IsPlain)
    (hpublics : ∀ name ∈ u.publics, isIdentifier name = true) :
    ∀ line ∈ u.templateLine :: u.body.map Line.text ++ ["\x7d", "", u.mainLine],
      isOneLine line = true := by
  intro line hline
  simp only [List.mem_append, List.mem_cons, List.mem_map, List.not_mem_nil, or_false] at hline
  obtain (rfl | ⟨line, hline, rfl⟩) | rfl | rfl | rfl := hline
  · exact u.isOneLine_templateLine htemplate
  · exact (hbody line hline).isOneLine_text
  · rfl
  · rfl
  · exact u.isOneLine_mainLine htemplate hpublics

/-- Every line stays on its line when the paths do as well, and the version is numbers between
dots. -/
theorem SourceUnit.isOneLine_lines {u : SourceUnit}
    (hversion : isDottedDigits u.version.toList = true)
    (hincludes : ∀ path ∈ u.includes, isOneLine path = true)
    (htemplate : isIdentifier u.template = true) (hbody : ∀ line ∈ u.body, line.IsPlain)
    (hpublics : ∀ name ∈ u.publics, isIdentifier name = true) :
    ∀ line ∈ u.lines, isOneLine line = true := by
  intro line hline
  rw [lines_eq, List.append_assoc] at hline
  rcases List.mem_append.1 hline with hhead | htail
  · obtain rfl | rfl | ⟨path, hpath, rfl⟩ := u.mem_headLines hhead
    · simp +decide [isOneLine_of_isPlain (isPlain_of_isDottedDigits hversion)]
    · rfl
    · simp +decide [hincludes path hpath]
  · exact isOneLine_template htemplate hbody hpublics line htail

/-- Parts of which a well-formed unit can be made. -/
structure SourceUnit.SoundParts (u : SourceUnit) : Prop where
  /-- The version is numbers between dots. -/
  version : isDottedDigits u.version.toList = true
  /-- The paths may stand between quotation marks. -/
  includes : ∀ path ∈ u.includes, isQuotable path = true
  /-- The template has an identifier for a name. -/
  template : isIdentifier u.template = true
  /-- The name of the template is not reserved. -/
  not_reserved : u.template ∉ reservedNames
  /-- The lines of the body are plain. -/
  body : ∀ line ∈ u.body, line.IsPlain
  /-- The public inputs are identifiers. -/
  publics : ∀ name ∈ u.publics, isIdentifier name = true

namespace SourceUnit.SoundParts

variable {u : SourceUnit} (h : u.SoundParts)

include h

/-- A line that includes a file stands before the template. -/
theorem includes_lines : ∀ line ∈ u.lines, startsWith "include" line = true →
    ∃ path, line = s!"include \"{path}\";" ∧ isQuotable path = true := by
  intro line hline hstarts
  have hmem : line ∈ u.lines.filter (startsWith "include") := List.mem_filter.2 ⟨hline, hstarts⟩
  rw [filter_include] at hmem
  obtain ⟨path, hpath, rfl⟩ := List.mem_map.1 hmem
  exact ⟨path, rfl, h.includes path hpath⟩

/-- Sound parts make a well-formed unit. -/
theorem wellFormed : u.WellFormed where
  lines := splitLines_joinLines (isOneLine_lines h.version
    (fun path hpath => isOneLine_of_isQuotable (h.includes path hpath)) h.template h.body h.publics)
  version := by
    obtain ⟨parts, hparts, hdigits, hversion⟩ := exists_parts_of_isDottedDigits h.version
    exact ⟨parts, hparts, hdigits, hversion, rfl⟩
  includes := h.includes_lines
  opened := u.filter_template
  closed := ⟨u.lines_eq, balanced_body h.body⟩
  main := u.filter_main
  mainLine := by
    unfold mainLine
    split
    · exact .inl rfl
    · rename_i hempty
      exact .inr ⟨u.publics, fun hnil => hempty (by rw [hnil]; rfl), h.publics, rfl⟩
  identifier := h.template
  not_reserved := h.not_reserved

end SourceUnit.SoundParts

variable {config : Config} {index : Index}

/-- The path of an included file is made of the characters of the directory and of the file, and of
slashes. -/
theorem all_includePath {p : Char → Bool} (hslash : p '/' = true)
    (hroot : config.includeRoot.toList.all p = true) {file : String}
    (hfile : file.toList.all p = true) : (config.includePath file).toList.all p = true := by
  unfold Config.includePath
  dsimp only
  split
  · exact hfile
  · have hdirectory : ∀ c ∈ (config.includeRoot.toList.reverse.dropWhile (· == '/')).reverse,
        c ∈ config.includeRoot.toList := fun c hc =>
      List.mem_reverse.1 ((List.dropWhile_sublist _).subset (List.mem_reverse.1 hc))
    simp only [List.all_eq_true] at hroot hfile ⊢
    intro c hc
    rw [String.toList_append, String.toList_append, String.toList_ofList] at hc
    rcases List.mem_append.1 hc with hc | hc
    · rcases List.mem_append.1 hc with hc | hc
      · exact hroot c (hdirectory c hc)
      · rw [List.mem_singleton.1 hc]
        exact hslash
    · exact hfile c hc

/-- The name of every library file may stand between quotation marks. -/
theorem Library.isQuotable_file (library : Library) : isQuotable library.file = true := by
  cases library <;> decide

/-- What is emitted has sound parts when the paths may stand between quotation marks and the name of
the template is not reserved. -/
theorem Emits.soundParts {vs : List Vertex} {s : Emission} (h : Emits config index vs s)
    (hc : config.Accepted) (hroot : isQuotable config.includeRoot = true)
    (htemplate : config.templateName ∉ reservedNames) :
    (SourceUnit.ofFragments config s.fragments).SoundParts where
  version := hc.version
  includes := by
    intro path hpath
    obtain ⟨library, -, rfl⟩ := List.mem_map.1 hpath
    exact all_includePath rfl hroot library.isQuotable_file
  template := hc.template
  not_reserved := htemplate
  body := h.isPlain_body
  publics := h.plain.publics

/-- With an accepted configuration whose directory may stand between quotation marks and whose
template name is not reserved, emitted source is well formed. -/
theorem compile_wellFormed (config : Config) (hc : config.check = .ok ())
    (hroot : isQuotable config.includeRoot = true) (htemplate : config.templateName ∉ reservedNames)
    (g : Graph) (h : (g.compile config).isEmitted = true) :
    ∃ u : SourceUnit, u.OfGraph config g ∧ (g.compile config).code = u.text ∧
      u.template = config.templateName ∧ u.WellFormed := by
  have hc := Config.accepted_of_check hc
  obtain ⟨u, hu, htext⟩ := Graph.exists_unit hc ((Graph.isEmitted_compile hc).1 h)
  obtain ⟨order, horder, hemit⟩ := hu
  obtain ⟨s, hs, rfl⟩ := emitUnit_eq_ok.1 hemit
  exact ⟨_, ⟨order, horder, hemit⟩, htext, rfl, (hs.soundParts hc hroot htemplate).wellFormed⟩

/-- The gallery's tree membership under the configuration of the editor. -/
theorem compile_wellFormed_merkleMembership :
    let g := Exhibit.merkleMembership.graph
    ({} : Config).check = .ok () ∧ isQuotable ({} : Config).includeRoot = true ∧
      ({} : Config).templateName ∉ reservedNames ∧ (g.compile {}).isEmitted = true ∧
      ∃ u : SourceUnit, u.OfGraph {} g ∧ (g.compile {}).code = u.text ∧
        u.template = ({} : Config).templateName ∧ u.WellFormed := by
  have hroot : isQuotable ({} : Config).includeRoot = true := by decide
  have htemplate : ({} : Config).templateName ∉ reservedNames := by decide
  have hemitted := (Graph.isEmitted_compile (Config.accepted_of_check rfl)).2
    Exhibit.hasFatal_merkleMembership
  exact ⟨rfl, hroot, htemplate, hemitted, compile_wellFormed {} rfl hroot htemplate _ hemitted⟩

/-! ## Configurations that are accepted all the same -/

/-- The path can be read off an include line. -/
theorem includeLine_injective {path other : String}
    (h : s!"include \"{path}\";" = s!"include \"{other}\";") : path = other := by
  have hlist := congrArg String.toList h
  simp only [String.toList_append] at hlist
  exact String.toList_inj.1 (List.append_cancel_left (List.append_cancel_right hlist))

/-- Every path has its include line. -/
theorem SourceUnit.mem_lines_of_mem_includes {u : SourceUnit} {path : String}
    (hpath : path ∈ u.includes) : s!"include \"{path}\";" ∈ u.lines := by
  have hline : s!"include \"{path}\";" ∈ u.includes.map fun path => s!"include \"{path}\";" :=
    List.mem_map_of_mem hpath
  have hhead : s!"include \"{path}\";" ∈ u.headLines := by
    unfold headLines
    dsimp only
    split
    · rename_i hempty
      rw [List.isEmpty_iff.1 hempty] at hline
      cases hline
    · exact List.mem_cons_of_mem _ (List.mem_cons_of_mem _ (List.mem_append_left _ hline))
  rw [lines_eq]
  exact List.mem_append_left _ (List.mem_append_left _ hhead)

/-- The paths of a well-formed unit may stand between quotation marks. -/
theorem SourceUnit.WellFormed.isQuotable {u : SourceUnit} (h : u.WellFormed) {path : String}
    (hpath : path ∈ u.includes) : isQuotable path = true := by
  obtain ⟨other, hother, hquotable⟩ :=
    h.includes _ (SourceUnit.mem_lines_of_mem_includes hpath) (startsWith_includeLine path)
  rw [includeLine_injective hother]
  exact hquotable

/-- A configuration whose directory holds a quotation mark. -/
def quoting : Config := { includeRoot := "a\"b" }

/-- A configuration whose template is named like a word of the language. -/
def keyword : Config := { templateName := "signal" }

/-- The range check includes one file. -/
theorem includes_rangeVerification {u : SourceUnit}
    (h : u.OfGraph quoting Exhibit.rangeVerification.graph) :
    u.includes = ["a\"b/comparators.circom"] := by
  obtain ⟨order, horder, hu⟩ := h
  let g := Exhibit.rangeVerification.graph
  -- the nodes are listed in their linear order, and all of them feed an output
  have hlinear : g.linearize = .ok ⟨g.index, g.vertices⟩ := by cbv
  have hpruned : (LinearOrder.mk g.index g.vertices).pruned = ⟨g.index, g.vertices⟩ := by cbv
  have hemit : (emitUnit quoting ⟨g.index, g.vertices⟩).map SourceUnit.includes =
      .ok ["a\"b/comparators.circom"] := rfl
  cases hlinear.symm.trans horder
  rw [hpruned] at hu
  rw [hu] at hemit
  exact Except.ok.inj hemit

/-- Both configurations are accepted, and the range check is emitted under them, but not as a
well-formed unit: under the one an include ends its quotation in the middle of the path, and under
the other the template is named by a reserved word. -/
theorem rangeVerification_not_wellFormed :
    let g := Exhibit.rangeVerification.graph
    (quoting.check = .ok () ∧ (g.compile quoting).isEmitted = true ∧
      ∃ u : SourceUnit, u.OfGraph quoting g ∧ (g.compile quoting).code = u.text ∧
        "a\"b/comparators.circom" ∈ u.includes ∧ ¬ u.WellFormed) ∧
    keyword.check = .ok () ∧ (g.compile keyword).isEmitted = true ∧
      ∃ u : SourceUnit, u.OfGraph keyword g ∧ (g.compile keyword).code = u.text ∧
        u.template = "signal" ∧ ¬ u.WellFormed := by
  have hquoting : quoting.Accepted := Config.accepted_of_check rfl
  have hkeyword : keyword.Accepted := Config.accepted_of_check rfl
  have hfatal : hasFatal (Exhibit.rangeVerification.graph.validate quoting) = false :=
    Exhibit.hasFatal_rangeVerification rfl
  have hfatal' : hasFatal (Exhibit.rangeVerification.graph.validate keyword) = false :=
    Exhibit.hasFatal_rangeVerification rfl
  obtain ⟨u, hu, htext⟩ := Graph.exists_unit hquoting hfatal
  obtain ⟨w, hw, htext'⟩ := Graph.exists_unit hkeyword hfatal'
  refine ⟨⟨rfl, (Graph.isEmitted_compile hquoting).2 hfatal, u, hu, htext, ?_⟩,
    rfl, (Graph.isEmitted_compile hkeyword).2 hfatal', w, hw, htext', ?_⟩
  · have hpath : "a\"b/comparators.circom" ∈ u.includes := by
      rw [includes_rangeVerification hu]
      exact List.mem_singleton_self _
    have hquote : isQuotable "a\"b/comparators.circom" = false := by decide
    exact ⟨hpath, fun h => Bool.noConfusion ((h.isQuotable hpath).symm.trans hquote)⟩
  · have htemplate : w.template = "signal" := by
      obtain ⟨order, -, hemit⟩ := hw
      obtain ⟨s, -, rfl⟩ := emitUnit_eq_ok.1 hemit
      rfl
    exact ⟨htemplate, fun h => h.not_reserved (by rw [htemplate]; decide)⟩

end CircuitGraph.Circom
