import CircuitGraph.Proofs.Circom.Emission
import CircuitGraph.Proofs.Circom.Placeholder

/-!
# Nothing but comments

Diagnostics have ids and messages that are free text, and a placeholder quotes them. If it kept
their line breaks, what stands behind one would be source. The main statement is that a blocked
compilation gives comments only, with one for every fatal diagnostic (`CommentText`), and that
comments are never taken for source, or source for them (`CommentsOrSource`).
-/

namespace CircuitGraph

namespace Text

/-! ## Texts on one line -/

/-- A text on one line: what stands between its line breaks, with spaces in between. -/
def onOneLine (s : String) : String := " ".intercalate (splitLines s)

/-- Every line break becomes a space. -/
theorem toList_onOneLine (s : String) :
    (onOneLine s).toList = s.toList.map fun c => if isLineBreak c then ' ' else c := by
  have hchars (cs : List Char) : [' '].intercalate (cs.splitOnP isLineBreak) =
      cs.map fun c => if isLineBreak c then ' ' else c := by
    induction cs with
    | nil => rfl
    | cons c cs ih =>
      obtain ⟨part, parts, hparts⟩ :=
        List.exists_cons_of_ne_nil (List.splitOnP_ne_nil isLineBreak cs)
      rw [List.splitOnP_cons_eq_if_modifyHead, List.map_cons, ← ih, hparts]
      by_cases hc : isLineBreak c
      · rw [if_pos hc, if_pos hc, List.intercalate_cons_cons]
        rfl
      · rw [if_neg hc, if_neg hc, List.modifyHead_cons]
        cases parts <;> simp [List.intercalate_cons_cons]
  rw [← hchars, onOneLine, splitLines, String.toList_intercalate, List.map_map]
  congr 1
  exact (List.map_congr_left fun cs _ => String.toList_ofList).trans (List.map_id _)

example : onOneLine "one\r\ntwo" = "one  two" := by decide

/-- A text on one line holds no line break. -/
theorem isOneLine_onOneLine (s : String) : isOneLine (onOneLine s) = true := by
  rw [isOneLine, toList_onOneLine, List.all_map, List.all_eq_true]
  intro c _
  by_cases hc : isLineBreak c
  · rw [Function.comp_apply, if_pos hc]
    rfl
  · rw [Function.comp_apply, if_neg hc]
    simpa using hc

/-- A text made of lines ends in a line feed. -/
theorem getLast?_toList_joinLines {lines : List String} (h : lines ≠ []) :
    (joinLines lines).toList.getLast? = some '\n' := by
  obtain ⟨init, last, rfl⟩ := (List.eq_nil_or_concat lines).resolve_left h
  simp [joinLines, String.toList_join]

end Text

namespace Circom

open Text

/-- A text of the given lines that is only comments. -/
structure CommentText (code : String) (lines : List String) : Prop where
  /-- The text ends in a line feed. -/
  ends : code.toList.getLast? = some '\n'
  /-- The lines of the text are the given ones, whether a line feed or a carriage return ends them.
  -/
  split : splitLines code = lines ++ [""]
  /-- Every line is a comment. -/
  comments : ∀ line ∈ lines, startsWith "//" line = true
  /-- The text is taken for a placeholder. -/
  placeholder : isPlaceholder code = true

/-- The text of comments below the header. -/
theorem commentText_joinLines {lines : List String}
    (h : ∀ line ∈ lines, isOneLine line = true ∧ startsWith "//" line = true) :
    CommentText (joinLines (placeholderHeader :: lines)) (placeholderHeader :: lines) where
  ends := getLast?_toList_joinLines (List.cons_ne_nil _ _)
  split := splitLines_joinLines
    (List.forall_mem_cons.2 ⟨by decide, fun line hline => (h line hline).1⟩)
  comments := List.forall_mem_cons.2 ⟨by decide, fun line hline => (h line hline).2⟩
  placeholder := isPlaceholder_joinLines_header lines

/-- The comment that quotes a text. -/
theorem commentLine_eq (s : String) : commentLine s = "// " ++ onOneLine s := by
  rw [← String.toList_inj]
  simp [commentLine, toList_onOneLine, isLineBreak]

/-- What is put behind the slashes of a comment stays in the comment. -/
theorem isComment_append {s : String} (h : isOneLine s = true) :
    isOneLine ("// " ++ s) = true ∧ startsWith "//" ("// " ++ s) = true := by
  constructor
  · rw [isOneLine_append, h]
    rfl
  · rw [startsWith, String.toList_append]
    rfl

/-- The lines of the placeholder for diagnostics: those that are fatal are counted and quoted. -/
def placeholderLines (ds : List Diagnostic) : List String :=
  let fatal := ds.filter Diagnostic.isFatal
  placeholderHeader
    :: ("// " ++ s!"{fatal.length} fatal diagnostic(s) must be resolved before source is generated")
    :: fatal.map fun d => "// " ++ onOneLine d.text

/-- There are two lines above those of the fatal diagnostics. -/
theorem length_placeholderLines (ds : List Diagnostic) :
    (placeholderLines ds).length = 2 + fatalCount ds := by
  rw [placeholderLines, fatalCount, List.countP_eq_length_filter, List.length_cons,
    List.length_cons, List.length_map]
  omega

/-- The placeholder for diagnostics is only comments. -/
theorem commentText_placeholder (ds : List Diagnostic) :
    CommentText (Circom.placeholder ds) (placeholderLines ds) := by
  have hlines : Circom.placeholder ds = joinLines (placeholderLines ds) := by
    simp only [Circom.placeholder, placeholderLines, fatalCount, List.countP_eq_length_filter,
      commentLine_eq, toString, String.append_assoc]
  rw [hlines]
  refine commentText_joinLines (List.forall_mem_cons.2 ⟨?_, fun line hline => ?_⟩)
  · refine isComment_append ?_
    rw [isOneLine_append, isOneLine_toString, Nat.toString_eq_repr,
      isOneLine_of_isPlain (isPlain_repr _)]
    rfl
  · obtain ⟨d, _, rfl⟩ := List.mem_map.1 hline
    exact isComment_append (isOneLine_onOneLine _)

/-- The placeholder for an order that cannot be emitted is only comments. -/
theorem commentText_blockedBy (error : EmitError) :
    CommentText (blockedBy error) [placeholderHeader, "// " ++ onOneLine error.message] := by
  rw [blockedBy, commentLine_eq]
  refine commentText_joinLines (List.forall_mem_singleton.2 ?_)
  exact isComment_append (isOneLine_onOneLine _)

/-- A compilation is blocked by comments, and source is emitted as it is. -/
structure CommentsOrSource (config : Config) (order : LinearOrder) (ds : List Diagnostic) :
    Prop where
  /-- The placeholder for diagnostics counts the fatal ones and quotes each of them on a line. -/
  quotes : CommentText (Circom.placeholder ds) (placeholderLines ds)
  /-- The placeholder for diagnostics has two lines besides those of the fatal ones. -/
  length : (placeholderLines ds).length = 2 + fatalCount ds
  /-- When a diagnostic is fatal, the placeholder is given. -/
  fatal : hasFatal ds = true → emit config order ds = Circom.placeholder ds
  /-- When no diagnostic is fatal, an order that cannot be emitted gives two lines of comments. -/
  refused : hasFatal ds = false → ∀ error, tryEmit config order = .error error →
    CommentText (emit config order ds) [placeholderHeader, "// " ++ onOneLine error.message]
  /-- When no diagnostic is fatal, the source of an order that can be emitted is given as it is. -/
  emitted : hasFatal ds = false → ∀ code, tryEmit config order = .ok code →
    emit config order ds = code
  /-- Source is not taken for a placeholder. -/
  source : ∀ code, tryEmit config order = .ok code → isPlaceholder code = false

/-- **Nothing but comments.** Whatever the diagnostics say, a compilation that they block, or whose
order cannot be emitted, gives comments only, and otherwise it gives the source as it is, which is
not taken for a placeholder. -/
theorem commentsOrSource (config : Config) (order : LinearOrder) (ds : List Diagnostic) :
    CommentsOrSource config order ds where
  quotes := commentText_placeholder ds
  length := length_placeholderLines ds
  fatal hfatal := if_pos hfatal
  refused hfatal error herror := by
    simpa [emit, hfatal, herror] using commentText_blockedBy error
  emitted hfatal code hcode := by simp [emit, hfatal, hcode]
  source code hcode := by
    obtain ⟨u, _, rfl⟩ := tryEmit_eq_ok.1 hcode
    exact isPlaceholder_text u

end Circom

end CircuitGraph
