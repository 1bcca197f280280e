import CircuitGraph.Proofs.Circom.Opening

/-!
# Instances of templates

A reader of emitted text tells which templates it needs by the lines that instantiate one: lines
other than comments in which an equals sign is followed by the name of a template with arguments
(`Instantiates`). `Line.instantiates_iff` says that the reader finds what the statements
instantiate and nothing else.

In a line that instantiates a template there is one equals sign, so it is clear what stands behind
it. In the other lines the sign is no word of its own, because names and references do not contain
it, with the exception of a loop, whose line does not end like that of a statement.
-/

namespace CircuitGraph.Circom

open CircuitGraph.Text

/-! ## Templates by their names -/

namespace Template

/-- The name under which a template is defined. -/
def name : Template → String
  | greaterThan _ => "GreaterThan"
  | lessThan _ => "LessThan"
  | greaterEqThan _ => "GreaterEqThan"
  | lessEqThan _ => "LessEqThan"
  | isEqual => "IsEqual"
  | num2Bits _ => "Num2Bits"
  | poseidon _ => "Poseidon"
  | multiMux1 _ => "MultiMux1"

/-- The text of the arguments. -/
def arguments : Template → String
  | greaterThan n | lessThan n | greaterEqThan n | lessEqThan n | num2Bits n | poseidon n
  | multiMux1 n => toString n
  | isEqual => ""

/-- The arguments of a template stand in parentheses behind its name. -/
theorem text_eq (t : Template) : t.text = s!"{t.name}({t.arguments})" := by
  cases t <;> rfl

/-- The name of a template is an identifier. -/
theorem isIdentifier_name (t : Template) : isIdentifier t.name = true := by
  cases t <;> rw [name] <;> decide

/-- The arguments are numbers. -/
theorem isWordChar_of_mem_arguments {t : Template} {c : Char} (h : c ∈ t.arguments.toList) :
    IsWordChar c := by
  cases t with
  | isEqual => cases h
  | _ => exact isWordChar_of_mem_repr h

end Template

/-- The names of the templates that a file defines, as far as they are instantiated. -/
def Library.definitions : Library → List String
  | comparators =>
    ["LessThan", "GreaterThan", "LessEqThan", "GreaterEqThan", "IsEqual", "Num2Bits"]
  | poseidon => ["Poseidon"]
  | mux1 => ["MultiMux1"]

/-- A template is defined in its file and in no other one. -/
theorem Template.name_mem_definitions_iff (t : Template) (library : Library) :
    t.name ∈ library.definitions ↔ t.library = library := by
  cases t <;> cases library <;> simp [name, Library.definitions, Template.library]

/-- A line of text instantiates the template of the given name. -/
def Instantiates (name line : String) : Prop :=
  begins "//" line = false ∧ ∃ target arguments : String, line = s!"{target} = {name}({arguments});"

/-- Some line instantiates a template that the file defines. -/
def Library.IsUsedIn (library : Library) (lines : List String) : Prop :=
  ∃ line ∈ lines, ∃ name ∈ library.definitions, Instantiates name line

/-! ## The equals sign -/

/-- What stands between separators is part of the whole. -/
theorem mem_of_mem_splitOn {α : Type} [BEq α] {separator x : α} {xs part : List α}
    (hpart : part ∈ xs.splitOn separator) (hx : x ∈ part) : x ∈ xs := by
  unfold List.splitOn at hpart
  induction xs generalizing part with
  | nil =>
    rw [List.splitOnP_nil, List.mem_singleton] at hpart
    exact hpart ▸ hx
  | cons y ys ih =>
    obtain ⟨first, others, hsplit⟩ :=
      List.exists_cons_of_ne_nil (List.splitOnP_ne_nil (· == separator) ys)
    have hfirst : first ∈ ys.splitOnP (· == separator) := hsplit ▸ List.mem_cons_self
    rw [List.splitOnP_cons_eq_if_modifyHead, hsplit, List.modifyHead_cons] at hpart
    split at hpart
    · rcases List.mem_cons.1 hpart with rfl | hpart
      · cases hx
      · exact List.mem_cons_of_mem _ (ih (hsplit ▸ hpart) hx)
    · rcases List.mem_cons.1 hpart with rfl | hpart
      · rcases List.mem_cons.1 hx with rfl | hx
        · exact List.mem_cons_self
        · exact List.mem_cons_of_mem _ (ih hfirst hx)
      · exact List.mem_cons_of_mem _ (ih (hsplit ▸ List.mem_cons_of_mem _ hpart) hx)

/-- The words on both sides of a blank are those of the one and of the other side. -/
theorem words_append (left right : List Char) :
    (left ++ ' ' :: right).splitOn ' ' = left.splitOn ' ' ++ right.splitOn ' ' :=
  List.splitOnP_append_cons left right rfl

/-- A sign that does not occur is no word of its own. -/
theorem not_mem_words {cs : List Char} (h : '=' ∉ cs) : ['='] ∉ cs.splitOn ' ' := fun hmem =>
  h (mem_of_mem_splitOn hmem (List.mem_singleton_self _))

/-- Another sign between texts without the equals sign is not the equals sign. -/
theorem not_mem_words_sign {left sign right : List Char} (hleft : '=' ∉ left) (hright : '=' ∉ right)
    (hsign : sign.splitOn ' ' = [sign]) (hne : sign ≠ ['=']) :
    ['='] ∉ (left ++ ' ' :: (sign ++ ' ' :: right)).splitOn ' ' := by
  rw [words_append, words_append, hsign, List.mem_append, List.mem_append, List.mem_singleton]
  rintro (hmem | heq | hmem)
  · exact not_mem_words hleft hmem
  · exact hne heq.symm
  · exact not_mem_words hright hmem

/-- In a line that instantiates a template the equals sign is a word. -/
theorem Instantiates.mem_words {name line : String} (h : Instantiates name line) :
    ['='] ∈ line.toList.splitOn ' ' := by
  obtain ⟨-, target, arguments, rfl⟩ := h
  have htext : (s!"{target} = {name}({arguments});").toList =
      target.toList ++ ' ' :: (['='] ++ ' ' :: (name ++ "(" ++ arguments ++ ");").toList) := by
    simp [toString]
  have hsign : ['='].splitOn ' ' = [['=']] := rfl
  rw [htext, words_append, words_append, hsign]
  exact List.mem_append_right _ (List.mem_append_left _ (List.mem_singleton_self _))

/-- A line that instantiates a template contains the equals sign. -/
theorem Instantiates.equals_mem {name line : String} (h : Instantiates name line) :
    '=' ∈ line.toList :=
  mem_of_mem_splitOn h.mem_words (List.mem_singleton_self _)

/-! ## References and expressions -/

/-- An identifier does not contain the equals sign. -/
theorem equals_not_mem_of_isIdentifier {name : String} (h : isIdentifier name = true) :
    '=' ∉ name.toList := fun hmem =>
  absurd (isWordChar_of_isIdentifier h '=' hmem) (by decide)

/-- A number does not contain the equals sign. -/
@[simp] theorem equals_not_mem_toDigits (n : Nat) : '=' ∉ Nat.toDigits 10 n := fun hmem =>
  absurd (isWordChar_of_mem_repr (Nat.toList_repr ▸ hmem)) (by decide)

namespace Ref

/-- A signal of a component contains the equals sign when the component or the name does. -/
@[simp] theorem equals_mem_field (r : Ref) (name : String) :
    '=' ∈ (r.field name).text.toList ↔ '=' ∈ r.text.toList ∨ '=' ∈ name.toList := by
  simp [field, text, Accessor.text, toString, or_assoc]

/-- An element contains the equals sign when the array does. -/
@[simp] theorem equals_mem_atPlace (r : Ref) (n : Nat) :
    '=' ∈ (r.atPlace n).text.toList ↔ '=' ∈ r.text.toList := by
  simp [atPlace, text, Accessor.text, Subscript.text, toString]

/-- An element contains the equals sign when the array does. -/
@[simp] theorem equals_mem_atCounter (r : Ref) (offset : Nat) :
    '=' ∈ (r.atCounter offset).text.toList ↔ '=' ∈ r.text.toList := by
  have hcounter : '=' ∉ counterName.toList := by decide
  cases offset with
  | _ => simp [atCounter, text, Accessor.text, Subscript.text, toString, hcounter]

end Ref

/-- An expression does not contain the equals sign when its references do not. -/
theorem Expr.equals_not_mem_textAt {e : Expr} (h : ∀ r ∈ e.refs none, '=' ∉ r.text.toList)
    (least : Nat) : '=' ∉ (e.textAt least).toList := by
  induction e generalizing least with
  | ref r => exact h r (List.mem_singleton_self _)
  | const n => simp [textAt, toString]
  | binary op left right hleft hright =>
    rw [refs, List.forall_mem_append] at h
    have hsymbol : '=' ∉ op.symbol.toList := by cases op <;> decide
    simp only [textAt]
    split <;> simp [toString, hleft h.1, hright h.2, hsymbol]

/-! ## Statements and lines -/

/-- The equals sign is no word of a statement that instantiates nothing. -/
theorem Statement.not_mem_words {s : Statement} (hnames : ∀ n ∈ s.declares, isIdentifier n = true)
    (hrefs : ∀ r ∈ s.refs none, '=' ∉ r.text.toList) (hnone : s.template? = none)
    {lead : List Char} (hlead : '=' ∉ lead) :
    ['='] ∉ (lead ++ s.text.toList).splitOn ' ' := by
  have hassigned (target : Ref) (value : Expr) (sign : List Char)
      (hrefs : ∀ r ∈ target :: value.refs none, '=' ∉ r.text.toList)
      (hsign : sign.splitOn ' ' = [sign]) (hne : sign ≠ ['=']) :
      ['='] ∉ (lead ++ target.text.toList ++ ' ' ::
        (sign ++ ' ' :: (value.text.toList ++ [';']))).splitOn ' ' := by
    rw [List.forall_mem_cons] at hrefs
    refine not_mem_words_sign ?_ ?_ hsign hne
    · simp [hlead, hrefs.1]
    · simp [Expr.text, Expr.equals_not_mem_textAt hrefs.2]
  cases s with
  | signal name =>
    have hname := equals_not_mem_of_isIdentifier (hnames name (List.mem_singleton_self _))
    exact Circom.not_mem_words (by simp [text, toString, hlead, hname])
  | signalArray name size =>
    have hname := equals_not_mem_of_isIdentifier (hnames name (List.mem_singleton_self _))
    exact Circom.not_mem_words (by simp [text, toString, hlead, hname])
  | componentArray name size =>
    have hname := equals_not_mem_of_isIdentifier (hnames name (List.mem_singleton_self _))
    exact Circom.not_mem_words (by simp [text, toString, hlead, hname])
  | component name template => cases hnone
  | instantiate target template => cases hnone
  | constrain target value =>
    simpa [text, toString] using hassigned target value ['<', '=', '='] hrefs rfl (by decide)
  | assign target value =>
    simpa [text, toString] using hassigned target value ['<', '-', '-'] hrefs rfl (by decide)
  | equate left right =>
    rw [refs, List.forall_mem_append] at hrefs
    have hleft := Expr.equals_not_mem_textAt hrefs.1 0
    have hright := Expr.equals_not_mem_textAt hrefs.2 0
    have h : ['='] ∉ (lead ++ left.text.toList ++ ' ' ::
        (['=', '=', '='] ++ ' ' :: (right.text.toList ++ [';']))).splitOn ' ' :=
      not_mem_words_sign (by simp [Expr.text, hlead, hleft]) (by simp [Expr.text, hright]) rfl
        (by decide)
    simpa [text, toString] using h

/-- A line that begins with a character of a word is no comment. -/
theorem begins_comment_eq_false {line : String} (h : ∃ c ∈ line.toList.head?, IsWordChar c) :
    begins "//" line = false := by
  obtain ⟨c, hc, hword⟩ := h
  obtain ⟨cs, hline⟩ := List.head?_eq_some_iff.1 hc
  have hblank : c ≠ ' ' := fun heq => absurd (heq ▸ hword) (by decide)
  have hslash : '/' ≠ c := fun heq => absurd (heq ▸ hword) (by decide)
  simp [begins, List.isPrefixOf, hline, hblank, hslash]

/-- A statement that instantiates a template does so for a target, behind one equals sign. -/
theorem Statement.exists_target {s : Statement} {t : Template} (h : s.template? = some t)
    (hnames : ∀ n ∈ s.declares ++ s.mentions, isIdentifier n = true)
    (hrefs : ∀ r ∈ s.refs none, '=' ∉ r.text.toList) :
    begins "//" s.text = false ∧
      ∃ target : String, s.text = s!"{target} = {t.text};" ∧ '=' ∉ target.toList := by
  cases s with
  | component name template =>
    cases h
    have hname := equals_not_mem_of_isIdentifier (hnames name (by simp))
    exact ⟨begins_comment_eq_false ⟨'c', by simp [text, toString], by decide⟩,
      "component " ++ name, rfl, by simp [hname]⟩
  | instantiate target template =>
    cases h
    have hname := hnames target.name (by simp)
    obtain ⟨c, cs, hlist⟩ := exists_cons_of_isIdentifier hname
    have hc := isWordChar_of_isIdentifier hname c (by simp [hlist])
    exact ⟨begins_comment_eq_false ⟨c, by simp [text, toString, Ref.text, hlist], hc⟩, target.text,
      rfl, hrefs target (List.mem_singleton_self _)⟩
  | _ => cases h

/-- One equals sign leads to the name of a template. -/
theorem Instantiates.name_eq {name line target : String} {t : Template}
    (h : Instantiates name line) (hline : line = s!"{target} = {t.text};")
    (htarget : '=' ∉ target.toList) : t.name = name := by
  obtain ⟨-, other, arguments, hother⟩ := h
  have hname := isWordChar_of_isIdentifier t.isIdentifier_name
  have hnot {c : Char} (hc : ¬ IsWordChar c) : c ∉ t.name.toList ∧ c ∉ t.arguments.toList :=
    ⟨fun hmem => hc (hname c hmem), fun hmem => hc (Template.isWordChar_of_mem_arguments hmem)⟩
  obtain ⟨hequals, hequals'⟩ := hnot (show ¬ IsWordChar '=' by decide)
  obtain ⟨hopening, hopening'⟩ := hnot (show ¬ IsWordChar '(' by decide)
  have hsides : (target.toList ++ [' ']) ++ '=' ::
        (' ' :: (t.name.toList ++ '(' :: (t.arguments.toList ++ [')', ';']))) =
      (other.toList ++ [' ']) ++ '=' ::
        (' ' :: (name.toList ++ '(' :: (arguments.toList ++ [')', ';']))) := by
    have heq := congrArg String.toList (hline.symm.trans hother)
    simpa [t.text_eq, toString] using heq
  obtain ⟨-, -, hright⟩ := (List.append_cons_inj_of_notMem (by simp [htarget])
    (by simp [hequals, hequals'])).1 hsides
  obtain ⟨heq, -⟩ := (List.append_cons_inj_of_notMem hopening (by simp [hopening'])).1
    (List.cons.inj hright).2
  exact String.toList_inj.1 heq

/-- The template that a line instantiates, if any. -/
@[simp] def Line.template? : Line → Option Template
  | statement _ s => s.template?
  | _ => none

/-- A statement stands behind blanks. -/
theorem Line.exists_lead (inLoop : Bool) (s : Statement) :
    ∃ lead : String, (statement inLoop s).text = lead ++ s.text ∧ '=' ∉ lead.toList ∧
      ∀ words line, begins words (lead ++ line) = begins words line := by
  cases inLoop with
  | false => exact ⟨indent, rfl, by decide, begins_indent⟩
  | true =>
    refine ⟨indent ++ indent, (String.append_assoc).symm, by decide, fun words line => ?_⟩
    rw [String.append_assoc, begins_indent, begins_indent]

/-- A line instantiates what its statement does, and nothing else can be read into it. -/
theorem Line.instantiates_iff {line : Line}
    (hnames : ∀ n ∈ line.declares ++ line.mentions, isIdentifier n = true)
    (hrefs : ∀ r ∈ line.refs, '=' ∉ r.text.toList) {name : String} :
    Instantiates name line.text ↔ ∃ t, line.template? = some t ∧ t.name = name := by
  cases line with
  | statement inLoop s =>
    obtain ⟨lead, htext, hlead, hbegins⟩ := exists_lead inLoop s
    rw [htext]
    constructor
    · intro h
      cases ht : s.template? with
      | none =>
        have hmem := h.mem_words
        rw [String.toList_append] at hmem
        exact absurd hmem (Statement.not_mem_words
          (fun n hn => hnames n (List.mem_append_left _ hn)) hrefs ht hlead)
      | some t =>
        obtain ⟨-, target, hs, htarget⟩ := Statement.exists_target ht hnames hrefs
        have hline : lead ++ s.text = s!"{lead ++ target} = {t.text};" := by
          simp [hs, toString, String.append_assoc]
        exact ⟨t, ht, h.name_eq hline (by simp [hlead, htarget])⟩
    · rintro ⟨t, ht, rfl⟩
      obtain ⟨hcomment, target, hs, -⟩ := Statement.exists_target ht hnames hrefs
      refine ⟨(hbegins _ _).trans hcomment, lead ++ target, t.arguments, ?_⟩
      simp [hs, t.text_eq, toString, String.append_assoc]
  | heading heading =>
    -- a comment instantiates nothing
    have hcomment : begins "//" heading.text = true := by
      simp [begins, Heading.text, toString, List.isPrefixOf]
    refine iff_of_false (fun h => ?_) (by simp)
    exact Bool.noConfusion (h.1.symm.trans ((begins_indent _ _).trans hcomment))
  | loopStart count =>
    -- the line of a statement ends in another way
    refine iff_of_false (fun h => ?_) (by simp)
    obtain ⟨-, target, arguments, hline⟩ := h
    obtain ⟨opening, -, htext⟩ := exists_text_loopStart count
    have hlast := congrArg (fun line => line.toList.getLast?) (htext.symm.trans hline)
    have hbrace : "\x7b".toList = ['{'] := rfl
    have hend : (toString ");").toList = [')'] ++ [';'] := rfl
    rw [String.toList_append, String.toList_append, hbrace, hend, ← List.append_assoc,
      List.getLast?_concat, List.getLast?_concat] at hlast
    cases hlast
  | input d =>
    have hname := equals_not_mem_of_isIdentifier (hnames d.name (by simp))
    refine iff_of_false (fun h => absurd h.equals_mem ?_) (by simp)
    cases hsize : d.size <;> simp [text, InputDecl.text, indent, toString, hsize, hname]
  | output name =>
    have hname := equals_not_mem_of_isIdentifier (hnames name (by simp))
    refine iff_of_false (fun h => absurd h.equals_mem ?_) (by simp)
    simp [text, indent, toString, hname]
  | blank => exact iff_of_false (fun h => absurd h.equals_mem (by decide)) (by simp)
  | loopEnd => exact iff_of_false (fun h => absurd h.equals_mem (by decide)) (by simp)

end CircuitGraph.Circom
