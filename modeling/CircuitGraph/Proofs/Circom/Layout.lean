import CircuitGraph.Proofs.Circom.Legible
import CircuitGraph.Proofs.Circom.Placeholder

/-!
# The layout of a template body

Every line of an emitted body is plain, which means that it holds no line break, and no brace except
where a loop is opened or closed (`Emits.isPlain_body`). Names are plain because they are
identifiers, and references because the names in them are.

A loop closes the brace that it opens, so plain lines put together from blocks are balanced
(`SourceUnit.balanced_body`): the brace behind the body is the one that closes the template.
-/

namespace CircuitGraph.Circom

open CircuitGraph.Text

/-! ## Names -/

/-- A character of an identifier is plain. -/
theorem isPlainChar_of_isWordChar {c : Char} (h : IsWordChar c) : isPlainChar c = true := by
  refine isPlainChar_iff.2 ⟨?_, ?_, ?_, ?_⟩ <;> rintro rfl <;> exact absurd h (by decide)

/-- An identifier is plain. -/
theorem isPlain_of_isIdentifier {s : String} (h : isIdentifier s = true) : isPlain s = true := by
  rw [isPlain, List.all_eq_true]
  exact fun c hc => isPlainChar_of_isWordChar (isWordChar_of_isIdentifier h c hc)

/-! ## References and expressions -/

/-- The text of a reference without steps is its name. -/
@[simp] theorem text_signalRef (name : String) : (signalRef name).text = name := by
  simp [signalRef, Ref.text]

/-- A legible reference is plain. -/
theorem Ref.IsLegible.isPlain_text {r : Ref} (h : r.IsLegible) : isPlain r.text = true := by
  have hsubscript (n : Subscript) : isPlain n.text = true := by
    cases n with
    | fixed n => exact isPlain_repr n
    | counter offset => cases offset <;> simp +decide [Subscript.text]
  have haccessor : ∀ a ∈ r.path, isPlain a.text = true := fun a ha => by
    cases a with
    | element n => simp +decide [Accessor.text, hsubscript]
    | field name =>
      have hname : isPlain name = true := isPlain_of_isIdentifier (h.path _ ha)
      simp +decide [Accessor.text, hname]
  have hpath : (pathChars r.path).all isPlainChar = true := by
    rw [pathChars, List.all_flatMap, List.all_eq_true]
    exact haccessor
  have hname : r.name.toList.all isPlainChar = true := isPlain_of_isIdentifier h.name
  rw [isPlain, toList_text, List.all_append, hname, hpath, Bool.true_and]

namespace Expr

/-- Every reference of an expression is plain. -/
@[simp] def IsPlain : Expr → Prop
  | ref r => isPlain r.text = true
  | const _ => True
  | binary _ left right => left.IsPlain ∧ right.IsPlain

/-- The text of an expression is plain when its references are. -/
theorem IsPlain.isPlain_textAt {e : Expr} (h : e.IsPlain) (least : Nat) :
    isPlain (e.textAt least) = true := by
  induction e generalizing least with
  | ref r => exact h
  | const n => exact isPlain_repr n
  | binary op left right hleft hright =>
    have hsymbol : isPlain op.symbol = true := by cases op <;> rfl
    simp only [textAt]
    split <;> simp +decide [hleft h.1, hright h.2, hsymbol]

end Expr

/-! ## Statements and lines -/

/-- The text of a template with its arguments is plain. -/
@[simp] theorem Template.isPlain_text (template : Template) : isPlain template.text = true := by
  have hcall (name : String) (h : isPlain name = true) (n : Nat) :
      isPlain (name ++ n.repr ++ ")") = true := by
    simp +decide [h]
  cases template with
  | isEqual => decide
  | greaterThan bits => exact hcall "GreaterThan(" (by decide) bits
  | lessThan bits => exact hcall "LessThan(" (by decide) bits
  | greaterEqThan bits => exact hcall "GreaterEqThan(" (by decide) bits
  | lessEqThan bits => exact hcall "LessEqThan(" (by decide) bits
  | num2Bits bits => exact hcall "Num2Bits(" (by decide) bits
  | poseidon inputs => exact hcall "Poseidon(" (by decide) inputs
  | multiMux1 width => exact hcall "MultiMux1(" (by decide) width

/-- Every name and reference of a statement is plain. -/
@[simp] def Statement.IsPlain : Statement → Prop
  | signal name | signalArray name _ | component name _ | componentArray name _ =>
    isPlain name = true
  | instantiate target _ => isPlain target.text = true
  | constrain target value | assign target value => isPlain target.text = true ∧ value.IsPlain
  | equate left right => left.IsPlain ∧ right.IsPlain

/-- The text of a statement is plain when its names and references are. -/
theorem Statement.IsPlain.isPlain_text {s : Statement} (h : s.IsPlain) : isPlain s.text = true := by
  cases s with
  | constrain target value | assign target value =>
    have hvalue := h.2.isPlain_textAt 0
    simp +decide [text, Expr.text, h.1, hvalue]
  | equate left right =>
    simp +decide [text, Expr.text, h.1.isPlain_textAt, h.2.isPlain_textAt]
  | _ =>
    rw [Statement.IsPlain] at h
    simp +decide [text, h]

/-- Every name and reference of a line is plain. -/
@[simp] def Line.IsPlain : Line → Prop
  | input d => isPlain d.name = true
  | output name => isPlain name = true
  | heading h => isPlain h.text = true
  | statement _ s => s.IsPlain
  | blank | loopStart _ | loopEnd => True

/-- An expression is plain when its references are legible. -/
theorem Expr.isPlain_of_refs {e : Expr} (h : ∀ r ∈ e.refs none, r.IsLegible) : e.IsPlain := by
  induction e with
  | ref r => exact (h r (List.mem_singleton_self _)).isPlain_text
  | const n => trivial
  | binary op left right hleft hright =>
    rw [refs, List.forall_mem_append] at h
    exact ⟨hleft h.1, hright h.2⟩

/-- A legible line is plain, when in a comment the words for the kind are. -/
theorem Line.isPlain_of_isLegible {line : Line} (h : line.IsLegible)
    (hkind : ∀ heading, line = .heading heading → isPlain heading.kind = true) : line.IsPlain := by
  have hnames : ∀ n ∈ line.declares, isPlain n = true := fun n hn =>
    isPlain_of_isIdentifier (h.declares n hn)
  have hrefs := h.refs
  cases line with
  | input d => exact hnames d.name (List.mem_singleton_self _)
  | output name => exact hnames name (List.mem_singleton_self _)
  | heading heading =>
    have hname := isPlain_of_isIdentifier (h.heading heading rfl)
    simp +decide [IsPlain, Heading.text, hname, hkind heading rfl]
  | statement inLoop s =>
    cases s with
    | signal name | signalArray name _ | component name _ | componentArray name _ =>
      exact hnames name (List.mem_singleton_self _)
    | instantiate target template => exact (hrefs target (List.mem_singleton_self _)).isPlain_text
    | constrain target value | assign target value =>
      rw [refs, Statement.refs, List.forall_mem_cons] at hrefs
      exact ⟨Ref.IsLegible.isPlain_text hrefs.1, Expr.isPlain_of_refs hrefs.2⟩
    | equate left right =>
      rw [refs, Statement.refs, List.forall_mem_append] at hrefs
      exact ⟨Expr.isPlain_of_refs hrefs.1, Expr.isPlain_of_refs hrefs.2⟩
  | blank | loopStart _ | loopEnd => trivial

namespace Line

/-- Whether a line opens or closes a loop. -/
def isBracket : Line → Bool
  | loopStart _ | loopEnd => true
  | _ => false

variable {line : Line}

/-- The text of a line is plain, unless the line opens or closes a loop. -/
theorem IsPlain.isPlain_text (h : line.IsPlain) (hbracket : line.isBracket = false) :
    isPlain line.text = true := by
  have hindent : isPlain indent = true := by decide
  cases line with
  | input d =>
    rw [IsPlain] at h
    cases hsize : d.size <;> simp +decide [text, InputDecl.text, hsize, h, hindent]
  | output name =>
    rw [IsPlain] at h
    simp +decide [text, h, hindent]
  | blank => rfl
  | heading heading =>
    rw [IsPlain] at h
    simp [text, h, hindent]
  | statement inLoop s =>
    have hs := Statement.IsPlain.isPlain_text h
    cases inLoop <;> simp [text, hs, hindent]
  | loopStart _ | loopEnd => cases hbracket

/-- The line that opens a loop ends with the brace. -/
theorem exists_text_loopStart (count : Nat) :
    ∃ s, isPlain s = true ∧ (loopStart count).text = s ++ "\x7b" := by
  let i := counterName
  have hbrace : toString "++) \x7b" = toString "++) " ++ "\x7b" := rfl
  refine ⟨indent ++ s!"for (var {i} = 0; {i} < {count}; {i}++) ", by simp +decide [i], ?_⟩
  simp [text, hbrace, String.append_assoc, i]

/-- The text of a line stays on its line. -/
theorem IsPlain.isOneLine_text (h : line.IsPlain) : isOneLine line.text = true := by
  cases line with
  | loopStart count =>
    obtain ⟨s, hs, htext⟩ := exists_text_loopStart count
    simp +decide [htext, isOneLine_of_isPlain hs]
  | loopEnd => decide
  | _ => exact isOneLine_of_isPlain (h.isPlain_text rfl)

end Line

/-! ## Braces -/

/-- The characters of the lines of a body. -/
def bodyChars (lines : List Line) : List Char := lines.flatMap fun line => line.text.toList

/-- Lines that close as many braces as they open, and none before it is opened. -/
def Balanced (lines : List Line) : Prop :=
  ∀ depth cs, braceDepth? depth (bodyChars lines ++ cs) = braceDepth? depth cs

/-- Balanced lines behind one another are balanced. -/
theorem Balanced.append {a b : List Line} (ha : Balanced a) (hb : Balanced b) :
    Balanced (a ++ b) := by
  intro depth cs
  rw [bodyChars, List.flatMap_append, List.append_assoc]
  exact (ha depth _).trans (hb depth cs)

/-- Lines that are made up of balanced parts are balanced. -/
theorem balanced_flatMap {α : Type} {items : List α} {f : α → List Line}
    (h : ∀ item ∈ items, Balanced (f item)) : Balanced (items.flatMap f) := by
  induction items with
  | nil => exact fun _ _ => rfl
  | cons item items ih =>
    rw [List.flatMap_cons]
    exact (h item List.mem_cons_self).append (ih fun other hother =>
      h other (List.mem_cons_of_mem _ hother))

/-- Plain lines outside of loops are balanced. -/
theorem balanced_of_isPlain {lines : List Line}
    (h : ∀ line ∈ lines, line.IsPlain ∧ line.isBracket = false) : Balanced lines := by
  rw [← List.flatMap_singleton' lines]
  refine balanced_flatMap fun line hline depth cs => ?_
  rw [bodyChars, List.flatMap_singleton]
  exact braceDepth?_append ((h line hline).1.isPlain_text (h line hline).2) depth cs

/-- Plain lines in a loop are balanced together with the lines that open and close it. -/
theorem balanced_loop (count : Nat) {lines : List Line}
    (h : ∀ line ∈ lines, line.IsPlain ∧ line.isBracket = false) :
    Balanced (.loopStart count :: lines ++ [.loopEnd]) := by
  intro depth cs
  obtain ⟨s, hs, htext⟩ := Line.exists_text_loopStart count
  have hend : Line.loopEnd.text = indent ++ "\x7d" := rfl
  have hopening : "\x7b".toList = ['{'] := rfl
  have hclosing : "\x7d".toList = ['}'] := rfl
  have hindent : isPlain indent = true := rfl
  have hchars : bodyChars (.loopStart count :: lines ++ [.loopEnd]) ++ cs =
      s.toList ++ '{' :: (bodyChars lines ++ (indent.toList ++ '}' :: cs)) := by
    simp [bodyChars, htext, hend, hopening, hclosing]
  rw [hchars, braceDepth?_append hs, braceDepth?, balanced_of_isPlain h,
    braceDepth?_append hindent, braceDepth?]

/-- A command closes the braces that it opens. -/
theorem Command.balanced_body {c : Command} (h : ∀ line ∈ c.body, line.IsPlain) :
    Balanced c.body := by
  cases c with
  | single s =>
    exact balanced_of_isPlain fun line hline =>
      ⟨h line hline, by rw [List.mem_singleton.1 hline]; rfl⟩
  | loop count statements =>
    refine balanced_loop count fun line hline => ⟨h line ?_, ?_⟩
    · exact List.mem_cons_of_mem _ (List.mem_append_left _ hline)
    · obtain ⟨s, -, rfl⟩ := List.mem_map.1 hline
      rfl

/-- A block closes the braces that it opens. -/
theorem Block.balanced_body {b : Block} (h : ∀ line ∈ b.body, line.IsPlain) :
    Balanced b.body := by
  rw [Block.body] at h ⊢
  refine Balanced.append (balanced_of_isPlain fun line hline => ?_)
    (balanced_flatMap fun c hc => Command.balanced_body fun line hline => ?_)
  · refine ⟨h line (List.mem_append_left _ hline), ?_⟩
    rcases List.mem_cons.1 hline with rfl | hline
    · rfl
    · obtain ⟨heading, -, rfl⟩ := Option.map_eq_some_iff.1 (Option.mem_toList.1 hline)
      rfl
  · exact h line (List.mem_append_right _ (List.mem_flatMap.2 ⟨c, hc, hline⟩))

/-- A body whose lines are plain closes the braces that it opens. -/
theorem SourceUnit.balanced_body {u : SourceUnit} (h : ∀ line ∈ u.body, line.IsPlain) :
    Balanced u.body := by
  rw [SourceUnit.body, List.forall_mem_append] at h
  refine Balanced.append (balanced_of_isPlain fun line hline => ⟨h.1 line hline, ?_⟩)
    (balanced_flatMap fun b hb => Block.balanced_body fun line hline => ?_)
  · rcases List.mem_append.1 hline with hline | hline
    · obtain ⟨d, -, rfl⟩ := List.mem_map.1 hline
      rfl
    · obtain ⟨name, -, rfl⟩ := List.mem_map.1 hline
      rfl
  · exact h.2 line (List.mem_flatMap.2 ⟨b, hb, hline⟩)

/-! ## Gates -/

/-- The words that name a node's kind are plain. -/
theorem isPlain_describe (node : Node) : isPlain node.describe = true := by
  unfold Node.describe
  split
  · decide
  · decide
  · rename_i operator _
    cases operator <;> decide
  · rename_i gadget _ _
    cases gadget <;> decide
  · decide
  · decide

/-- The public inputs of a gate are identifiers. -/
theorem Gate.isIdentifier_publics (config : Config) (node : Node) (names : NameTable) {gate : Gate}
    {name : String} (h : name ∈ (gate.fragment config node names).1.publics) :
    isIdentifier name = true := by
  cases gate with
  | input visibility label =>
    cases visibility with
    | secret => cases h
    | exposed =>
      rw [List.mem_singleton.1 h]
      exact isIdentifier_fresh (isIdentifier_labelIdentifier label) names []
  | _ => cases h

/-! ## Emission -/

/-- What holds of the texts at any time of an emission. -/
structure Emission.Plain (s : Emission) : Prop where
  /-- Every result is plain. -/
  results : ∀ e ∈ s.results, isPlain e.2.text = true
  /-- Every line of the blocks is plain. -/
  blocks : ∀ line ∈ (s.fragments.flatMap Fragment.blocks).flatMap Block.body, line.IsPlain
  /-- The public inputs are identifiers. -/
  publics : ∀ name ∈ s.fragments.flatMap Fragment.publics, isIdentifier name = true

variable {config : Config} {index : Index}

/-- The lines of an emitted body are plain. -/
theorem Emits.isPlain_body {vs : List Vertex} {s : Emission} (h : Emits config index vs s) :
    ∀ line ∈ (SourceUnit.ofFragments config s.fragments).body, line.IsPlain := by
  intro line hline
  refine Line.isPlain_of_isLegible (h.isLegible_body line hline) ?_
  rintro heading rfl
  obtain ⟨-, node, hkind⟩ := h.heading_spec hline
  exact hkind ▸ isPlain_describe node

/-- All along the emission the texts are plain. -/
theorem Emits.plain {vs : List Vertex} {s : Emission} (h : Emits config index vs s) : s.Plain where
  results e he := (h.isLegible_refs.1 e he).isPlain_text
  blocks line hline := h.isPlain_body line (List.mem_append_right _ hline)
  publics := by
    intro name hname
    obtain ⟨f, hf, hname⟩ := List.mem_flatMap.1 hname
    obtain ⟨gate, node, names, rfl⟩ := h.exists_gate hf
    exact gate.isIdentifier_publics config node names hname

end CircuitGraph.Circom
