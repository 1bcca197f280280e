import CircuitGraph.Proofs.Circom.Scope

/-!
# Renaming a source unit

Source is a sequence of pieces: names, and what is written around them. `SourceUnit.pieces` marks
every place at which a name is written, and reads as the text of the unit
(`SourceUnit.render_pieces`). `SourceUnit.rename` puts other names in place of those of the unit; in
the text this replaces the names at their places and nothing else (`SourceUnit.pieces_rename`).
-/

namespace CircuitGraph.Circom

/-! ## Other names -/

section

variable (f : String → String)

/-- A reference under another name. -/
def Ref.rename (r : Ref) : Ref := { r with name := f r.name }

/-- An expression with other names. -/
def Expr.rename : Expr → Expr
  | ref r => ref (r.rename f)
  | const n => const n
  | binary op left right => binary op left.rename right.rename

/-- A statement with other names. -/
def Statement.rename : Statement → Statement
  | signal name => signal (f name)
  | signalArray name size => signalArray (f name) size
  | component name template => component (f name) template
  | componentArray name size => componentArray (f name) size
  | instantiate target template => instantiate (target.rename f) template
  | constrain target value => constrain (target.rename f) (value.rename f)
  | assign target value => assign (target.rename f) (value.rename f)
  | equate left right => equate (left.rename f) (right.rename f)

/-- A command with other names. -/
def Command.rename : Command → Command
  | single s => single (s.rename f)
  | loop count body => loop count (body.map (Statement.rename f))

/-- A heading under another name. -/
def Heading.rename (h : Heading) : Heading := { h with name := f h.name }

/-- A block with other names. -/
def Block.rename (b : Block) : Block :=
  ⟨b.heading.map (Heading.rename f), b.commands.map (Command.rename f)⟩

/-- An input under another name. -/
def InputDecl.rename (d : InputDecl) : InputDecl := { d with name := f d.name }

/-- A fragment with other names. -/
def Fragment.rename (fragment : Fragment) : Fragment where
  libraries := fragment.libraries
  inputs := fragment.inputs.map (InputDecl.rename f)
  outputs := fragment.outputs.map f
  publics := fragment.publics.map f
  blocks := fragment.blocks.map (Block.rename f)
  result := fragment.result.map (Ref.rename f)

/-- A unit with other names. The name of the template stays. -/
def SourceUnit.rename (u : SourceUnit) : SourceUnit where
  version := u.version
  includes := u.includes
  template := u.template
  inputs := u.inputs.map (InputDecl.rename f)
  outputs := u.outputs.map f
  blocks := u.blocks.map (Block.rename f)
  publics := u.publics.map f

/-- A line with other names. -/
def Line.rename : Line → Line
  | input d => input (d.rename f)
  | output name => output (f name)
  | blank => blank
  | heading h => heading (h.rename f)
  | statement inLoop s => statement inLoop (s.rename f)
  | loopStart count => loopStart count
  | loopEnd => loopEnd

variable {f}

/-- The body of a renamed command is the renamed body. -/
theorem Command.body_rename (c : Command) : (c.rename f).body = c.body.map (Line.rename f) := by
  cases c with
  | single s => rfl
  | loop count body =>
    simp only [rename, Command.body, List.map_map, List.map_append, List.map_cons, List.map_nil]
    rfl

/-- The body of a renamed block is the renamed body. -/
theorem Block.body_rename (b : Block) : (b.rename f).body = b.body.map (Line.rename f) := by
  have hcommands : (b.commands.map (Command.rename f)).flatMap Command.body =
      (b.commands.flatMap Command.body).map (Line.rename f) := by
    rw [List.flatMap_map, List.map_flatMap]
    exact congrArg (fun g => b.commands.flatMap g) (funext Command.body_rename)
  rw [rename, Block.body, hcommands, Block.body, List.map_append]
  cases b.heading <;> rfl

/-- The body of a renamed unit is the renamed body. -/
theorem SourceUnit.body_rename (u : SourceUnit) :
    (u.rename f).body = u.body.map (Line.rename f) := by
  have hblocks : (u.blocks.map (Block.rename f)).flatMap Block.body =
      (u.blocks.flatMap Block.body).map (Line.rename f) := by
    rw [List.flatMap_map, List.map_flatMap]
    exact congrArg (fun g => u.blocks.flatMap g) (funext Block.body_rename)
  rw [rename, SourceUnit.body, hblocks, SourceUnit.body, List.map_append, List.map_append,
    List.map_map, List.map_map, List.map_map, List.map_map]
  rfl

/-- The unit of renamed fragments is the renamed unit. -/
theorem SourceUnit.ofFragments_rename (config : Config) (fragments : List Fragment) :
    SourceUnit.ofFragments config (fragments.map (Fragment.rename f)) =
      (SourceUnit.ofFragments config fragments).rename f := by
  have hlibraries : librariesOf (fragments.map (Fragment.rename f)) = librariesOf fragments := by
    simp only [librariesOf, List.any_map]
    rfl
  simp only [ofFragments, rename, hlibraries, List.flatMap_map, List.map_flatMap]
  rfl

end

/-! ## Pieces of a text -/

/-- A piece of source: a name, or what is written around names. -/
inductive Piece
  /-- What is written around names. -/
  | literal (text : String)
  /-- A name. -/
  | name (n : String)
deriving DecidableEq, Repr

namespace Piece

/-- The text of a piece. -/
def text : Piece → String
  | literal text => text
  | name n => n

/-- A piece with another name; what is written around names stays. -/
def rename (f : String → String) : Piece → Piece
  | literal text => literal text
  | name n => name (f n)

end Piece

/-- The text of pieces, one after the other. -/
def render (pieces : List Piece) : String := String.join (pieces.map Piece.text)

/-- No pieces have no text. -/
@[simp] theorem render_nil : render [] = "" := rfl

/-- The text begins with that of the first piece. -/
@[simp] theorem render_cons (piece : Piece) (pieces : List Piece) :
    render (piece :: pieces) = piece.text ++ render pieces := String.join_cons

/-- The text of pieces and further pieces. -/
@[simp] theorem render_append (a b : List Piece) : render (a ++ b) = render a ++ render b := by
  rw [render, List.map_append, String.join_append]
  rfl

/-- A piece that stands alone. -/
@[simp] theorem render_singleton (piece : Piece) : render [piece] = piece.text := by
  rw [render_cons, render_nil, String.append_empty]

/-- A text is written as it is. -/
theorem toString_string (s : String) : toString s = s := rfl

/-- Names with a separator between them. -/
theorem render_intersperse (separator : String) (names : List String) :
    render ((names.map Piece.name).intersperse (.literal separator)) =
      separator.intercalate names := by
  induction names with
  | nil => rfl
  | cons name names ih =>
    cases names with
    | nil =>
      rw [String.intercalate_singleton]
      exact render_singleton _
    | cons next names =>
      rw [String.intercalate_cons_cons, ← ih]
      simp [Piece.text, String.append_assoc]

/-- The pieces of a reference. -/
def Ref.pieces (r : Ref) : List Piece :=
  [.name r.name, .literal (String.join (r.path.map Accessor.text))]

/-- The pieces of an expression in a place that takes operators of at least the given precedence
without parentheses. -/
def Expr.piecesAt (least : Nat) : Expr → List Piece
  | ref r => r.pieces
  | const n => [.literal (toString n)]
  | binary op left right =>
    let p := op.precedence
    let body := left.piecesAt p ++ .literal s!" {op.symbol} " :: right.piecesAt (p + 1)
    if p < least then .literal "(" :: body ++ [.literal ")"] else body

/-- The pieces of an expression. -/
def Expr.pieces (e : Expr) : List Piece := e.piecesAt 0

/-- The pieces of a statement. -/
def Statement.pieces : Statement → List Piece
  | signal name => [.literal "signal ", .name name, .literal ";"]
  | signalArray name size => [.literal "signal ", .name name, .literal s!"[{size}];"]
  | component name template =>
    [.literal "component ", .name name, .literal s!" = {template.text};"]
  | componentArray name size => [.literal "component ", .name name, .literal s!"[{size}];"]
  | instantiate target template => target.pieces ++ [.literal s!" = {template.text};"]
  | constrain target value => target.pieces ++ .literal " <== " :: value.pieces ++ [.literal ";"]
  | assign target value => target.pieces ++ .literal " <-- " :: value.pieces ++ [.literal ";"]
  | equate left right => left.pieces ++ .literal " === " :: right.pieces ++ [.literal ";"]

/-- The pieces of a line. -/
def Line.pieces : Line → List Piece
  | input d =>
    [.literal (indent ++ "signal input "), .name d.name,
      .literal (match d.size with
        | none => ";"
        | some size => s!"[{size}];")]
  | output name => [.literal (indent ++ "signal output "), .name name, .literal ";"]
  | blank => []
  | heading h => [.literal (indent ++ "// "), .name h.name, .literal s!": {h.kind}"]
  | statement inLoop s => .literal (if inLoop then indent ++ indent else indent) :: s.pieces
  | loopStart count => [.literal (Line.loopStart count).text]
  | loopEnd => [.literal Line.loopEnd.text]

/-- The pieces of the line that instantiates the template. -/
def SourceUnit.mainPieces (u : SourceUnit) : List Piece :=
  if u.publics.isEmpty then
    [.literal u.mainLine]
  else
    .literal "component main \x7bpublic [" ::
      (u.publics.map Piece.name).intersperse (.literal ", ") ++
      [.literal s!"]\x7d = {u.template}();"]

/-- The pieces of each line of a unit. -/
def SourceUnit.linePieces (u : SourceUnit) : List (List Piece) :=
  u.headLines.map (fun line => [.literal line]) ++
    [.literal s!"template {u.template}() \x7b"] :: u.body.map Line.pieces ++
    [[.literal "\x7d"], [], u.mainPieces]

/-- The pieces of a unit: those of its lines, each ended by a line feed. -/
def SourceUnit.pieces (u : SourceUnit) : List Piece :=
  u.linePieces.flatMap fun line => line ++ [.literal "\n"]

/-! ## Pieces make the text -/

/-- The pieces of a reference make its text. -/
@[simp] theorem Ref.render_pieces (r : Ref) : render r.pieces = r.text := by
  simp [pieces, text, Piece.text]

/-- The pieces of an expression make its text. -/
@[simp] theorem Expr.render_piecesAt (e : Expr) (least : Nat) :
    render (e.piecesAt least) = e.textAt least := by
  induction e generalizing least with
  | ref r => exact r.render_pieces
  | const n => exact render_singleton _
  | binary op left right ihl ihr =>
    simp only [piecesAt, textAt]
    split <;> simp [ihl, ihr, Piece.text, String.append_assoc, toString_string]

/-- The pieces of an expression make its text. -/
@[simp] theorem Expr.render_pieces (e : Expr) : render e.pieces = e.text := e.render_piecesAt 0

/-- The pieces of a statement make its line. -/
@[simp] theorem Statement.render_pieces (s : Statement) : render s.pieces = s.text := by
  cases s <;> simp [pieces, text, Piece.text, String.append_assoc, toString_string]

/-- The pieces of a line make its text. -/
theorem Line.render_pieces (line : Line) : render line.pieces = line.text := by
  cases line with
  | input d =>
    obtain ⟨name, size⟩ := d
    cases size <;>
      simp [pieces, text, InputDecl.text, Piece.text, String.append_assoc, toString_string]
  | statement inLoop s => cases inLoop <;> simp [pieces, text, Piece.text, String.append_assoc]
  | _ => simp [pieces, text, Heading.text, Piece.text, String.append_assoc, toString_string]

/-- The pieces of the line that instantiates the template make this line. -/
theorem SourceUnit.render_mainPieces (u : SourceUnit) : render u.mainPieces = u.mainLine := by
  unfold mainPieces
  split
  · simp [Piece.text]
  · rename_i hpublics
    rw [mainLine, if_neg hpublics]
    simp [render_intersperse, Piece.text, String.append_assoc, toString_string]

/-- The pieces of a unit make its text. -/
theorem SourceUnit.render_pieces (u : SourceUnit) : render u.pieces = u.text := by
  have hlines : u.linePieces.map render = u.lines := by
    simp only [linePieces, lines, ← map_text_body, List.map_append, List.map_map, List.map_cons,
      List.map_nil, render_mainPieces]
    refine congrArg₂ (· ++ ·) (congrArg₂ (· ++ ·) ?_ (congrArg₂ List.cons ?_ ?_)) ?_
    · exact List.map_id'' (fun line => render_singleton (.literal line)) _
    · exact render_singleton _
    · exact List.map_congr_left fun line _ => line.render_pieces
    · rw [render_singleton, render_nil]
      rfl
  have hflat : ∀ lines : List (List Piece),
      render (lines.flatMap fun line => line ++ [.literal "\n"]) =
        Text.joinLines (lines.map render) := by
    intro lines
    induction lines with
    | nil => rfl
    | cons line lines ih =>
      rw [List.flatMap_cons, render_append, ih, List.map_cons, Text.joinLines, Text.joinLines,
        List.map_cons, String.join_cons]
      simp [Piece.text]
  rw [pieces, hflat, hlines, text]

/-! ## Pieces of a renamed unit -/

section

variable {f : String → String}

/-- The pieces of a renamed reference. -/
@[simp] theorem Ref.pieces_rename (r : Ref) :
    (r.rename f).pieces = r.pieces.map (Piece.rename f) := rfl

/-- The pieces of a renamed expression. -/
@[simp] theorem Expr.piecesAt_rename (e : Expr) (least : Nat) :
    (e.rename f).piecesAt least = (e.piecesAt least).map (Piece.rename f) := by
  induction e generalizing least with
  | ref r => rfl
  | const n => rfl
  | binary op left right ihl ihr =>
    simp only [rename, piecesAt]
    split <;> simp [ihl, ihr, Piece.rename]

/-- The pieces of a renamed expression. -/
@[simp] theorem Expr.pieces_rename (e : Expr) :
    (e.rename f).pieces = e.pieces.map (Piece.rename f) := e.piecesAt_rename 0

/-- The pieces of a renamed statement. -/
@[simp] theorem Statement.pieces_rename (s : Statement) :
    (s.rename f).pieces = s.pieces.map (Piece.rename f) := by
  cases s <;> simp [rename, pieces, Piece.rename]

/-- The pieces of a renamed line. -/
theorem Line.pieces_rename (line : Line) :
    (line.rename f).pieces = line.pieces.map (Piece.rename f) := by
  cases line with
  | statement inLoop s => simp [rename, pieces, Piece.rename]
  | _ => rfl

/-- The pieces of the renamed line that instantiates the template. -/
theorem SourceUnit.mainPieces_rename (u : SourceUnit) :
    (u.rename f).mainPieces = u.mainPieces.map (Piece.rename f) := by
  have hnames : ∀ names : List String,
      ((names.map f).map Piece.name).intersperse (.literal ", ") =
        ((names.map Piece.name).intersperse (.literal ", ")).map (Piece.rename f) := by
    intro names
    induction names with
    | nil => rfl
    | cons name names ih =>
      cases names with
      | nil => rfl
      | cons next names => simpa [Piece.rename] using ih
  unfold mainPieces
  cases hpublics : u.publics with
  | nil => simp [rename, mainLine, hpublics, Piece.rename]
  | cons name names =>
    have hrenamed : (u.rename f).publics = (name :: names).map f := by rw [rename, hpublics]
    rw [hrenamed]
    simp only [List.map_cons, List.isEmpty_cons, Bool.false_eq_true, if_false, List.map_append,
      List.map_nil]
    rw [← List.map_cons (f := Piece.name), ← List.map_cons (f := f), hnames]
    rfl

/-- In the text of a renamed unit the names are replaced, and nothing else. -/
theorem SourceUnit.pieces_rename (u : SourceUnit) :
    (u.rename f).pieces = u.pieces.map (Piece.rename f) := by
  have hlines : (u.rename f).linePieces = u.linePieces.map (List.map (Piece.rename f)) := by
    simp only [linePieces, body_rename, mainPieces_rename, List.map_append, List.map_map,
      List.map_cons, List.map_nil]
    refine congrArg₂ (· ++ ·) (congrArg₂ (· ++ ·) rfl (congrArg₂ List.cons rfl ?_)) rfl
    exact List.map_congr_left fun line _ => line.pieces_rename
  rw [pieces, hlines, pieces, List.flatMap_map, List.map_flatMap]
  refine congrArg (fun g => u.linePieces.flatMap g) (funext fun line => ?_)
  rw [List.map_append]
  rfl

end

end CircuitGraph.Circom
