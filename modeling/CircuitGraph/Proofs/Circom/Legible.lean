import CircuitGraph.Proofs.Circom.Token

/-!
# Bodies are read back

When the names in two lines are identifiers, the lines have the same text only when they are the
same line (`Line.eq_of_text_eq`). What sort of line it is shows in its first character behind the
indentation or in its last one, and a statement is read off its tokens.

The lines of a body fall into inputs, outputs and blocks in one way only, because a block begins
with an empty line and has no other one. So the inputs, the outputs and the blocks of a source unit
are read off its body (`SourceUnit.eq_of_bodyLines_eq`), and this holds of every emitted unit
(`Emits.readsBack`).
-/

namespace CircuitGraph.Circom

open CircuitGraph.Text

/-! ## Statements -/

/-- A signal with an identifier for a name is legible. -/
theorem isLegible_signalRef {name : String} (h : isIdentifier name = true) :
    (signalRef name).IsLegible where
  name := h
  path := nofun

/-- Legibility is carried on to parts. -/
theorem Ref.carried_isLegible : Ref.Carried Ref.IsLegible where
  field name hname r hr := by
    have hidentifier : ∀ name ∈ componentSignals, isIdentifier name = true := by decide
    refine ⟨hr.name, List.forall_mem_append.2 ⟨hr.path, ?_⟩⟩
    exact List.forall_mem_singleton.2 (hidentifier name hname)
  atPlace r n hr :=
    ⟨hr.name, List.forall_mem_append.2 ⟨hr.path, List.forall_mem_singleton.2 trivial⟩⟩
  atCounter r offset hr :=
    ⟨hr.name, List.forall_mem_append.2 ⟨hr.path, List.forall_mem_singleton.2 trivial⟩⟩

namespace Expr

/-- The sign of a constraint is no part of an expression. -/
theorem equals_notMem_tokensAt (e : Expr) (least : Nat) : .equals ∉ e.tokensAt least := by
  induction e generalizing least with
  | ref r => simp [tokensAt]
  | const n => simp [tokensAt]
  | binary op left right hleft hright =>
    rw [tokensAt]
    split <;> simp [hleft, hright]

/-- An expression begins with a value or with a parenthesis. -/
theorem exists_tokensAt_eq_cons (e : Expr) (least : Nat) :
    ∃ t ts, e.tokensAt least = t :: ts ∧ (t.isOperand = true ∨ t = .opening) := by
  induction e generalizing least with
  | ref r => exact ⟨_, _, rfl, .inl rfl⟩
  | const n => exact ⟨_, _, rfl, .inl rfl⟩
  | binary op left right hleft _ =>
    obtain ⟨t, ts, htokens, ht⟩ := hleft op.precedence
    rw [tokensAt, htokens]
    split
    · exact ⟨_, _, rfl, .inr rfl⟩
    · exact ⟨_, _, rfl, ht⟩

end Expr

namespace Statement

/-- The tokens of a statement, without the semicolon. -/
def tokens : Statement → List Token
  | signal name => [.ref (signalRef "signal"), .blank, .ref (signalRef name)]
  | signalArray name size =>
    [.ref (signalRef "signal"), .blank, .ref ((signalRef name).atPlace size)]
  | component name t => [.ref (signalRef "component"), .blank, .ref (signalRef name), .makes t]
  | componentArray name size =>
    [.ref (signalRef "component"), .blank, .ref ((signalRef name).atPlace size)]
  | instantiate target t => [.ref target, .makes t]
  | constrain target value => .ref target :: .constrains :: value.tokensAt 0
  | assign target value => .ref target :: .assigns :: value.tokensAt 0
  | equate left right => left.tokensAt 0 ++ .equals :: right.tokensAt 0

/-- The text of a statement is that of its tokens, with a semicolon. -/
theorem toList_text (s : Statement) : s.text.toList = charsOf s.tokens ++ [';'] := by
  cases s with
  | constrain target value | assign target value =>
    simp [text, tokens, Expr.text, Expr.charsOf_tokensAt, Token.text, toString]
  | equate left right =>
    simp [text, tokens, Expr.text, Expr.charsOf_tokensAt, Token.text, toString]
  | _ =>
    simp [text, tokens, Token.text, toString, Ref.text, Ref.atPlace, signalRef, Accessor.text,
      Subscript.text]

/-- The sign of a constraint is part of a constraint only. -/
theorem equals_mem_tokens_iff {s : Statement} :
    .equals ∈ s.tokens ↔ ∃ left right, s = equate left right := by
  cases s <;> simp [tokens, Expr.equals_notMem_tokensAt]

/-- The tokens of a statement are those of one statement only. -/
theorem eq_of_tokens_eq {s s' : Statement} (h : s.tokens = s'.tokens) : s = s' := by
  by_cases hequals : .equals ∈ s.tokens
  · obtain ⟨left, right, rfl⟩ := equals_mem_tokens_iff.1 hequals
    obtain ⟨left', right', rfl⟩ := equals_mem_tokens_iff.1 (h ▸ hequals)
    obtain ⟨hleft, -, hright⟩ := (List.append_cons_inj_of_notMem (left.equals_notMem_tokensAt 0)
      (right.equals_notMem_tokensAt 0)).1 h
    rw [Expr.eq_of_tokensAt_eq hleft, Expr.eq_of_tokensAt_eq hright]
  · have hequals' := h ▸ hequals
    -- the other statements are told by their second and fourth tokens
    cases s with
    | equate left right => exact absurd (equals_mem_tokens_iff.2 ⟨_, _, rfl⟩) hequals
    | constrain target value | assign target value =>
      cases s' <;> simp [tokens] at h hequals' ⊢
      exact ⟨h.1, Expr.eq_of_tokensAt_eq h.2⟩
    | _ =>
      cases s' <;> simp [tokens, signalRef, Ref.atPlace] at h hequals' ⊢
      exact h

/-- A statement is not taken for the declaration of an input or output, which holds two blanks. -/
theorem tokens_ne_declaration (s : Statement) {r r' r'' : Ref} :
    s.tokens ≠ [.ref r, .blank, .ref r', .blank, .ref r''] := by
  intro h
  cases s with
  | equate left right =>
    have hequals := equals_mem_tokens_iff.2 ⟨left, right, rfl⟩
    simp [h] at hequals
  | _ => simp [tokens] at h

/-- A statement begins with a value or with a parenthesis. -/
theorem exists_tokens_eq_cons (s : Statement) :
    ∃ t ts, s.tokens = t :: ts ∧ (t.isOperand = true ∨ t = .opening) := by
  cases s with
  | equate left right =>
    obtain ⟨t, ts, htokens, ht⟩ := left.exists_tokensAt_eq_cons 0
    exact ⟨t, _, by rw [tokens, htokens]; rfl, ht⟩
  | _ => exact ⟨_, _, rfl, .inl rfl⟩

/-- The tokens of a statement are legible when it declares identifiers and its references are. -/
theorem legible_tokens {s : Statement} (hdeclares : ∀ n ∈ s.declares, isIdentifier n = true)
    (hrefs : ∀ r ∈ s.refs none, r.IsLegible) : Legible s.tokens := by
  have hword : ∀ name ∈ ["signal", "component"], (signalRef name).IsLegible := by
    have hidentifier : ∀ name ∈ ["signal", "component"], isIdentifier name = true := by decide
    exact fun name hname => isLegible_signalRef (hidentifier name hname)
  rw [List.forall_mem_cons, List.forall_mem_singleton] at hword
  have hvalue {e : Expr} (h : ∀ r ∈ e.refs none, r.IsLegible) : Legible (e.tokensAt 0) := by
    have hnil : Legible [] := trivial
    simpa using e.legible_tokensAt h 0 hnil nofun
  cases s with
  | signal name | component name t =>
    have hname := isLegible_signalRef (hdeclares name (List.mem_singleton_self _))
    simp [tokens, Legible, Token.IsLegible, Token.Precedes, Token.isOperand, hword, hname]
  | signalArray name size | componentArray name size =>
    have hname := Ref.carried_isLegible.atPlace _ size
      (isLegible_signalRef (hdeclares name (List.mem_singleton_self _)))
    simp [tokens, Legible, Token.IsLegible, Token.Precedes, Token.isOperand, hword, hname]
  | instantiate target t =>
    have htarget := hrefs target (List.mem_singleton_self _)
    simp [tokens, Legible, Token.IsLegible, Token.Precedes, Token.isOperand, htarget]
  | constrain target value | assign target value =>
    rw [refs, List.forall_mem_cons] at hrefs
    have htarget : target.IsLegible := hrefs.1
    have hrest := hvalue hrefs.2
    simp [tokens, Legible, Token.IsLegible, Token.Precedes, Token.isOperand, htarget, hrest]
  | equate left right =>
    rw [refs, List.forall_mem_append] at hrefs
    have hright : Legible (.equals :: right.tokensAt 0) := ⟨trivial, trivial, hvalue hrefs.2⟩
    exact left.legible_tokensAt hrefs.1 0 hright fun t ht => Option.some.inj ht ▸ rfl

end Statement

/-! ## Lines -/

/-- The names in a line are identifiers. -/
structure Line.IsLegible (line : Line) : Prop where
  /-- The names that the line declares are identifiers. -/
  declares : ∀ n ∈ line.declares, isIdentifier n = true
  /-- The references in the line are legible. -/
  refs : ∀ r ∈ line.refs, r.IsLegible
  /-- The name in a comment is an identifier. -/
  heading : ∀ h, line = .heading h → isIdentifier h.name = true

/-- The sign that shows in the characters of a line: the character behind the indentation if it is a
slash or a blank, and the last character otherwise. -/
def signOf (cs : List Char) : Option Char :=
  match cs.drop indent.length with
  | '/' :: _ => some '/'
  | ' ' :: _ => some ' '
  | rest => rest.getLast?

/-- When neither a slash nor a blank is behind the indentation, the last character is the sign. -/
theorem signOf_eq_getLast? {c : Char} (hslash : c ≠ '/') (hblank : c ≠ ' ') (cs : List Char) :
    signOf (indent.toList ++ c :: cs) = (c :: cs).getLast? := by
  have hdrop : (indent.toList ++ c :: cs).drop indent.length = c :: cs := rfl
  rw [signOf, hdrop]
  split
  · rename_i h
    exact absurd (List.cons.inj h).1 hslash
  · rename_i h
    exact absurd (List.cons.inj h).1 hblank
  · rfl

/-- The name of an input, with the size of an array behind it as if it were a place. -/
def InputDecl.ref (d : InputDecl) : Ref := ⟨d.name, d.size.toList.map fun n => .element (.fixed n)⟩

/-- An input is known by its name and size. -/
theorem InputDecl.ref_injective : Function.Injective InputDecl.ref := by
  rintro ⟨name, size⟩ ⟨name', size'⟩ h
  simp only [ref, Ref.mk.injEq] at h
  cases size <;> cases size' <;> simp at h ⊢ <;> exact h

namespace Line

variable {line line' : Line}

/-- The tokens of a line that ends with a semicolon. -/
def tokens : Line → List Token
  | input d => [.ref (signalRef "signal"), .blank, .ref (signalRef "input"), .blank, .ref d.ref]
  | output name =>
    [.ref (signalRef "signal"), .blank, .ref (signalRef "output"), .blank, .ref (signalRef name)]
  | statement _ s => s.tokens
  | blank | heading _ | loopStart _ | loopEnd => []

/-- What shows of which sort a line is. -/
def sign : Line → Option Char
  | blank => none
  | heading _ => some '/'
  | loopStart _ => some '{'
  | loopEnd => some '}'
  | statement true _ => some ' '
  | statement false _ | input _ | output _ => some ';'

/-- The tokens of a legible line are legible. -/
theorem IsLegible.legible_tokens (h : line.IsLegible) : Legible line.tokens := by
  have hword : ∀ name ∈ ["signal", "input", "output"], (signalRef name).IsLegible := by
    have hidentifier : ∀ name ∈ ["signal", "input", "output"], isIdentifier name = true := by decide
    exact fun name hname => isLegible_signalRef (hidentifier name hname)
  simp only [List.forall_mem_cons] at hword
  cases line with
  | input d =>
    have hname : d.ref.IsLegible :=
      ⟨h.declares d.name (List.mem_singleton_self _), List.forall_mem_map.2 fun _ _ => trivial⟩
    simp [tokens, Legible, Token.IsLegible, Token.Precedes, Token.isOperand, hword, hname]
  | output name =>
    have hname := isLegible_signalRef (h.declares name (List.mem_singleton_self _))
    simp [tokens, Legible, Token.IsLegible, Token.Precedes, Token.isOperand, hword, hname]
  | statement inLoop s => exact Statement.legible_tokens h.declares h.refs
  | blank | heading _ | loopStart _ | loopEnd => trivial

/-- The tokens of a line with a semicolon, outside of loops, are those of one such line only. -/
theorem eq_of_tokens_eq (h : line.sign = some ';') (h' : line'.sign = some ';')
    (heq : line.tokens = line'.tokens) : line = line' := by
  cases line with
  | input d =>
    cases line' with
    | input d' =>
      have hdecl : d.ref = d'.ref := by simpa [tokens] using heq
      rw [InputDecl.ref_injective hdecl]
    | output name' => simp [tokens, signalRef] at heq
    | statement inLoop s' => exact absurd heq.symm s'.tokens_ne_declaration
    | _ => cases h'
  | output name =>
    cases line' with
    | input d' => simp [tokens, signalRef] at heq
    | output name' => simpa [tokens, signalRef] using heq
    | statement inLoop s' => exact absurd heq.symm s'.tokens_ne_declaration
    | _ => cases h'
  | statement inLoop s =>
    cases line' with
    | input d' | output name' => exact absurd heq s.tokens_ne_declaration
    | statement inLoop' s' =>
      have hinLoop {inLoop : Bool} {s : Statement} (h : (statement inLoop s).sign = some ';') :
          inLoop = false := by
        cases inLoop with
        | false => rfl
        | true => cases h
      rw [hinLoop h, hinLoop h', Statement.eq_of_tokens_eq heq]
    | _ => cases h'
  | _ => cases h

/-- The text of a line that ends with a semicolon, outside of loops. -/
theorem toList_text_of_sign (h : line.sign = some ';') :
    line.text.toList = indent.toList ++ (charsOf line.tokens ++ [';']) := by
  cases line with
  | input d =>
    obtain ⟨name, size⟩ := d
    cases size <;> simp [text, tokens, InputDecl.text, InputDecl.ref, Token.text, toString,
      Ref.text, signalRef, Accessor.text, Subscript.text]
  | output name => simp [text, tokens, Token.text, toString, Ref.text, signalRef]
  | statement inLoop s =>
    cases inLoop with
    | false => simp [text, tokens, Statement.toList_text]
    | true => cases h
  | _ => cases h

/-- The text of a statement in a loop. -/
theorem toList_text_inLoop (s : Statement) : (statement true s).text.toList =
    indent.toList ++ (indent.toList ++ (charsOf s.tokens ++ [';'])) := by
  simp [text, Statement.toList_text]

/-- The text of a line that opens a loop. -/
theorem toList_text_loopStart (count : Nat) : (loopStart count).text.toList =
    indent.toList ++ ("for (var i = 0; i < ".toList ++
      (count.repr.toList ++ "; i++) \x7b".toList)) := by
  simp [text, counterName, toString]

/-- The text of a comment. -/
theorem toList_text_heading (h : Heading) : (heading h).text.toList =
    indent.toList ++ ("// ".toList ++ (h.name.toList ++ ':' :: ' ' :: h.kind.toList)) := by
  simp [text, Heading.text, toString]

/-- Neither a slash nor a blank begins a line with a semicolon, outside of loops. -/
theorem IsLegible.exists_charsOf_eq_cons (h : line.IsLegible) (hsign : line.sign = some ';') :
    ∃ c cs, charsOf line.tokens = c :: cs ∧ c ≠ '/' ∧ c ≠ ' ' := by
  have hfirst : ∃ t ts, line.tokens = t :: ts ∧ (t.isOperand = true ∨ t = .opening) := by
    cases line with
    | input d | output name => exact ⟨_, _, rfl, .inl rfl⟩
    | statement inLoop s => exact s.exists_tokens_eq_cons
    | _ => cases hsign
  obtain ⟨t, ts, htokens, hoperand | rfl⟩ := hfirst
  · have ht : t.IsLegible := (htokens ▸ h.legible_tokens).1
    obtain ⟨c, cs, htext, hc⟩ := Token.exists_text_eq_cons_of_isOperand ht hoperand
    refine ⟨c, cs ++ charsOf ts, by rw [htokens, charsOf_cons, htext]; rfl, ?_, ?_⟩ <;>
      rintro rfl <;> exact absurd hc (by decide)
  · exact ⟨'(', charsOf ts, by rw [htokens]; rfl, by decide, by decide⟩

/-- The sign of a legible line shows in its characters. -/
theorem IsLegible.signOf_text (h : line.IsLegible) : signOf line.text.toList = line.sign := by
  by_cases hsign : line.sign = some ';'
  · obtain ⟨c, cs, hchars, hslash, hblank⟩ := h.exists_charsOf_eq_cons hsign
    rw [toList_text_of_sign hsign, hchars, List.cons_append, signOf_eq_getLast? hslash hblank,
      ← List.cons_append, List.getLast?_concat, hsign]
  · cases line with
    | input d => exact absurd rfl hsign
    | output name => exact absurd rfl hsign
    | statement inLoop s =>
      cases inLoop with
      | false => exact absurd rfl hsign
      | true => rw [toList_text_inLoop]; rfl
    | blank => rfl
    | heading heading => rw [toList_text_heading]; rfl
    | loopStart count =>
      have hfirst : "for (var i = 0; i < ".toList = 'f' :: "or (var i = 0; i < ".toList := rfl
      have hlast : "; i++) \x7b".toList = "; i++) ".toList ++ ['{'] := rfl
      rw [toList_text_loopStart, hfirst, List.cons_append,
        signOf_eq_getLast? (by decide) (by decide), hlast, ← List.cons_append, ← List.append_assoc,
        ← List.append_assoc, List.getLast?_concat]
      rfl
    | loopEnd => rfl

/-- A text belongs to one legible line only. -/
theorem eq_of_text_eq (h : line.IsLegible) (h' : line'.IsLegible) (heq : line.text = line'.text) :
    line = line' := by
  have hsign : line.sign = line'.sign := by rw [← h.signOf_text, heq, h'.signOf_text]
  have htokens (htext : charsOf line.tokens ++ [';'] = charsOf line'.tokens ++ [';']) :
      line.tokens = line'.tokens :=
    eq_of_charsOf_eq h.legible_tokens h'.legible_tokens (List.append_cancel_right htext)
  have hchars := congrArg String.toList heq
  by_cases hcode : line.sign = some ';'
  · rw [toList_text_of_sign hcode, toList_text_of_sign (hsign ▸ hcode)] at hchars
    exact eq_of_tokens_eq hcode (hsign ▸ hcode) (htokens (List.append_cancel_left hchars))
  · -- lines of different sorts have different signs
    rcases line with d | name | _ | ⟨name, kind⟩ | ⟨_ | _, s⟩ | count | _ <;>
      rcases line' with d' | name' | _ | ⟨name', kind'⟩ | ⟨_ | _, s'⟩ | count' | _ <;>
      first | exact absurd rfl hcode | cases hsign
    · rfl
    · rw [toList_text_heading, toList_text_heading] at hchars
      have hcolon {s : List Char} : EndsWord (':' :: s) := endsWord_cons (by decide)
      have htext := List.append_cancel_left (List.append_cancel_left hchars)
      obtain ⟨hname, hrest⟩ := eq_of_identifier_append (h.heading _ rfl) (h'.heading _ rfl) hcolon
        hcolon htext
      have hkind : kind = kind' := String.toList_inj.1 (by simpa using hrest)
      exact congrArg₂ (fun name kind => heading ⟨name, kind⟩) hname hkind
    · rw [toList_text_inLoop, toList_text_inLoop] at hchars
      have hstatement := htokens (List.append_cancel_left (List.append_cancel_left hchars))
      rw [Statement.eq_of_tokens_eq hstatement]
    · rw [toList_text_loopStart, toList_text_loopStart] at hchars
      have hends : EndsWord "; i++) \x7b".toList := endsWord_cons (by decide)
      have hcount := List.append_cancel_left (List.append_cancel_left hchars)
      rw [(eq_of_repr_append hends hends hcount).1]
    · rfl

end Line

/-- Legible lines have the same texts only when they are the same lines. -/
theorem eq_of_map_text_eq {lines lines' : List Line} (h : ∀ line ∈ lines, line.IsLegible)
    (h' : ∀ line ∈ lines', line.IsLegible) (heq : lines.map Line.text = lines'.map Line.text) :
    lines = lines' := by
  induction lines generalizing lines' with
  | nil => exact (List.map_eq_nil_iff.1 heq.symm).symm
  | cons line lines ih =>
    cases lines' with
    | nil => cases heq
    | cons line' lines' =>
      rw [List.forall_mem_cons] at h h'
      obtain ⟨htext, hrest⟩ := List.cons.inj heq
      rw [Line.eq_of_text_eq h.1 h'.1 htext, ih h.2 h'.2 hrest]

/-! ## Bodies -/

/-- The lines of commands belong to these commands only. -/
theorem Command.eq_of_flatMap_body_eq {cs cs' : List Command}
    (h : cs.flatMap Command.body = cs'.flatMap Command.body) : cs = cs' := by
  induction cs generalizing cs' with
  | nil =>
    cases cs' with
    | nil => rfl
    | cons c' cs' => cases c' <;> simp at h
  | cons c cs ih =>
    cases cs' with
    | nil => cases c <;> simp at h
    | cons c' cs' =>
      rw [List.flatMap_cons, List.flatMap_cons] at h
      cases c with
      | single s =>
        cases c' with
        | single s' =>
          obtain ⟨hs, hrest⟩ := List.cons.inj h
          cases hs
          rw [ih hrest]
        | loop count' statements' => simp at h
      | loop count statements =>
        cases c' with
        | single s' => simp at h
        | loop count' statements' =>
          simp only [body, List.cons_append, List.cons.injEq, Line.loopStart.injEq,
            List.append_assoc, List.nil_append] at h
          obtain ⟨rfl, hrest⟩ := h
          -- the statements of a loop end where the loop ends
          obtain ⟨hstatements, hrest⟩ := eq_and_eq_of_append_eq (P := (· ≠ Line.loopEnd)) (by simp)
            (by simp) (by simp) (by simp) hrest
          have hinjective : Function.Injective (Line.statement true) := fun s s' hs =>
            (Line.statement.inj hs).2
          rw [List.map_injective_iff.2 hinjective hstatements, ih (List.cons.inj hrest).2]

/-- What stands before the commands is not taken for a line of them. -/
theorem Command.forall_head?_flatMap_body {P : Line → Prop}
    (hstatement : ∀ s, P (.statement false s)) (hloop : ∀ count, P (.loopStart count))
    (cs : List Command) :
    ∀ line ∈ (cs.flatMap Command.body).head?, P line := by
  cases cs with
  | nil => exact nofun
  | cons c cs =>
    cases c with
    | single s => exact fun line hline => Option.some.inj hline ▸ hstatement s
    | loop count statements => exact fun line hline => Option.some.inj hline ▸ hloop count

namespace Block

/-- The lines of a block behind its empty line. -/
def tail (b : Block) : List Line :=
  (b.heading.map Line.heading).toList ++ b.commands.flatMap Command.body

/-- The lines of a block begin with an empty one. -/
theorem body_eq_cons (b : Block) : b.body = .blank :: b.tail := rfl

/-- No other line of a block is empty. -/
theorem ne_blank_of_mem_tail {b : Block} {line : Line} (h : line ∈ b.tail) : line ≠ .blank := by
  rintro rfl
  rcases List.mem_append.1 h with h | h
  · simp at h
  · obtain ⟨c, -, hc⟩ := List.mem_flatMap.1 h
    cases c <;> simp at hc

/-- The lines of a block belong to this block only. -/
theorem eq_of_tail_eq {b b' : Block} (h : b.tail = b'.tail) : b = b' := by
  obtain ⟨heading, commands⟩ := b
  obtain ⟨heading', commands'⟩ := b'
  have hheading (heading : Option Heading) : ∀ line ∈ (heading.map Line.heading).toList,
      ∃ heading, line = .heading heading := by
    cases heading <;> simp
  have hcommands := Command.forall_head?_flatMap_body
    (P := fun line => ¬ ∃ heading, line = .heading heading) (by simp) (by simp)
  obtain ⟨hheadings, hrest⟩ := eq_and_eq_of_append_eq (hheading heading) (hheading heading')
    (hcommands commands) (hcommands commands') h
  have heq : heading = heading' := by
    cases heading <;> cases heading' <;> simp at hheadings ⊢
    exact hheadings
  rw [heq, Command.eq_of_flatMap_body_eq hrest]

/-- The lines of blocks begin with an empty one. -/
theorem head?_flatMap_body (bs : List Block) : ∀ line ∈ (bs.flatMap body).head?, line = .blank := by
  cases bs with
  | nil => exact nofun
  | cons b bs => exact fun line hline => (Option.some.inj hline).symm

/-- The lines of blocks belong to these blocks only. -/
theorem eq_of_flatMap_body_eq {bs bs' : List Block}
    (h : bs.flatMap body = bs'.flatMap body) : bs = bs' := by
  induction bs generalizing bs' with
  | nil =>
    cases bs' with
    | nil => rfl
    | cons b' bs' => simp at h
  | cons b bs ih =>
    cases bs' with
    | nil => simp at h
    | cons b' bs' =>
      rw [List.flatMap_cons, List.flatMap_cons, body_eq_cons, body_eq_cons] at h
      -- a block ends where the next one begins
      obtain ⟨htail, hrest⟩ := eq_and_eq_of_append_eq (P := fun line => line ≠ .blank)
        (fun line => ne_blank_of_mem_tail) (fun line => ne_blank_of_mem_tail)
        (fun line hline => not_not.2 (head?_flatMap_body bs line hline))
        (fun line hline => not_not.2 (head?_flatMap_body bs' line hline)) (List.cons.inj h).2
      rw [eq_of_tail_eq htail, ih hrest]

end Block

namespace SourceUnit

variable {u u' : SourceUnit}

/-- The lines of a body belong to one list of inputs, outputs and blocks only. -/
theorem eq_of_body_eq (h : u.body = u'.body) :
    u.inputs = u'.inputs ∧ u.outputs = u'.outputs ∧ u.blocks = u'.blocks := by
  have hblocks {P : Line → Prop} (hP : P .blank) (bs : List Block) :
      ∀ line ∈ (bs.flatMap Block.body).head?, P line := fun line hline =>
    Block.head?_flatMap_body bs line hline ▸ hP
  have houtputs {P : Line → Prop} (hP : P .blank) (houtput : ∀ name, P (.output name))
      (names : List String) (bs : List Block) :
      ∀ line ∈ (names.map Line.output ++ bs.flatMap Block.body).head?, P line := by
    cases names with
    | nil => exact hblocks hP bs
    | cons name names => exact fun line hline => Option.some.inj hline ▸ houtput name
  rw [body, body, List.append_assoc, List.append_assoc] at h
  obtain ⟨hin, hrest⟩ := eq_and_eq_of_append_eq (P := fun line => ∃ d, line = Line.input d)
    (by simp) (by simp) (houtputs (by simp) (by simp) _ _) (houtputs (by simp) (by simp) _ _) h
  obtain ⟨hout, hrest⟩ := eq_and_eq_of_append_eq (P := fun line => ∃ name, line = Line.output name)
    (by simp) (by simp) (hblocks (by simp) _) (hblocks (by simp) _) hrest
  have hinput : Function.Injective Line.input := fun d d' hd => by cases hd; rfl
  have houtput : Function.Injective Line.output := fun name name' hname => by cases hname; rfl
  exact ⟨List.map_injective_iff.2 hinput hin, List.map_injective_iff.2 houtput hout,
    Block.eq_of_flatMap_body_eq hrest⟩

/-- The names in a body are identifiers. -/
def IsLegible (u : SourceUnit) : Prop := ∀ line ∈ u.body, line.IsLegible

/-- The printed lines of a legible body belong to one list of inputs, outputs and blocks only. -/
theorem eq_of_bodyLines_eq (h : u.IsLegible) (h' : u'.IsLegible)
    (heq : u.bodyLines = u'.bodyLines) :
    u.inputs = u'.inputs ∧ u.outputs = u'.outputs ∧ u.blocks = u'.blocks := by
  rw [← map_text_body, ← map_text_body] at heq
  exact eq_of_body_eq (eq_of_map_text_eq h h' heq)

/-- The inputs, the outputs and the blocks of a unit are read off its printed lines. -/
structure ReadsBack (u : SourceUnit) : Prop where
  /-- The names in the lines are identifiers. -/
  legible : u.IsLegible
  /-- No other inputs, outputs and blocks with identifiers for names have these printed lines. -/
  unique : ∀ u' : SourceUnit, u'.IsLegible → u'.bodyLines = u.bodyLines →
    u'.inputs = u.inputs ∧ u'.outputs = u.outputs ∧ u'.blocks = u.blocks

/-- A legible unit is read back. -/
theorem IsLegible.readsBack (h : u.IsLegible) : u.ReadsBack where
  legible := h
  unique _ h' heq := eq_of_bodyLines_eq h' h heq

end SourceUnit

/-! ## Emission -/

/-- The heading of a gate names the node by an identifier, and describes it. -/
theorem Gate.heading_spec (config : Config) (node : Node) (names : NameTable) {gate : Gate}
    {b : Block} (hb : b ∈ (gate.fragment config node names).1.blocks) {heading : Heading}
    (h : b.heading = some heading) :
    isIdentifier heading.name = true ∧ heading.kind = node.describe := by
  have hname (suffixes : List String) :
      isIdentifier (names.fresh (nodeIdentifier node.id) suffixes) = true :=
    isIdentifier_fresh (isIdentifier_nodeIdentifier node.id) names suffixes
  cases gate with
  | input visibility label => cases hb
  | output label value =>
    cases List.mem_singleton.1 hb
    cases h
  | _ =>
    cases List.mem_singleton.1 hb
    cases h
    exact ⟨hname _, rfl⟩

namespace Emits

variable {config : Config} {index : Index} {vs : List Vertex} {s : Emission}

/-- The results and the references in the lines of the blocks are legible. -/
theorem isLegible_refs (h : Emits config index vs s) :
    (∀ e ∈ s.results, e.2.IsLegible) ∧
      ∀ line ∈ (s.fragments.flatMap Fragment.blocks).flatMap Block.body,
        ∀ r ∈ line.refs, r.IsLegible :=
  h.forall_refs Ref.carried_isLegible fun _ => isLegible_signalRef

/-- A comment in an emitted body names a node by an identifier, and describes it. -/
theorem heading_spec (h : Emits config index vs s) {heading : Heading}
    (hline : .heading heading ∈ (SourceUnit.ofFragments config s.fragments).body) :
    isIdentifier heading.name = true ∧ ∃ node : Node, heading.kind = node.describe := by
  have hblocks : .heading heading ∈ (s.fragments.flatMap Fragment.blocks).flatMap Block.body := by
    rcases List.mem_append.1 hline with hline | hline
    · simp at hline
    · exact hline
  obtain ⟨b, hb, hlineb⟩ := List.mem_flatMap.1 hblocks
  obtain ⟨f, hf, hbf⟩ := List.mem_flatMap.1 hb
  obtain ⟨gate, node, names, rfl⟩ := h.exists_gate hf
  obtain ⟨hname, hkind⟩ :=
    gate.heading_spec config node names hbf (Block.heading_of_mem_body hlineb)
  exact ⟨hname, node, hkind⟩

/-- The names in the lines of an emitted body are identifiers. -/
theorem isLegible_body (h : Emits config index vs s) :
    (SourceUnit.ofFragments config s.fragments).IsLegible := by
  intro line hline
  have hdeclares : ∀ n ∈ line.declares, isIdentifier n = true := fun n hn =>
    h.wellScoped.identifier n (List.mem_flatMap.2 ⟨line, hline, hn⟩)
  refine ⟨hdeclares, ?_, fun heading heq => (h.heading_spec (heq ▸ hline)).1⟩
  rcases List.mem_append.1 hline with hline | hline
  · -- the declarations in front mention nothing
    rcases List.mem_append.1 hline with hline | hline
    · obtain ⟨d, -, rfl⟩ := List.mem_map.1 hline
      exact nofun
    · obtain ⟨name, -, rfl⟩ := List.mem_map.1 hline
      exact nofun
  · exact h.isLegible_refs.2 line hline

/-- Every emitted unit is read back. -/
theorem readsBack (h : Emits config index vs s) :
    (SourceUnit.ofFragments config s.fragments).ReadsBack :=
  h.isLegible_body.readsBack

end Emits

/-- Whatever is emitted is read back. -/
theorem readsBack_of_emitUnit {config : Config} {order : LinearOrder} {u : SourceUnit}
    (h : emitUnit config order = .ok u) : u.ReadsBack := by
  obtain ⟨s, hs, rfl⟩ := emitUnit_eq_ok.1 h
  exact hs.readsBack

/-- Whatever is emitted is read back and well scoped: for every order of any graph, pruned or not,
and whatever characters the labels and ids consist of. -/
theorem wellScoped_of_tryEmit {config : Config} {order : LinearOrder} {code : String}
    (h : tryEmit config order = .ok code) :
    ∃ u, emitUnit config order = .ok u ∧ u.text = code ∧ u.template = config.templateName ∧
      u.body.map Line.text = u.bodyLines ∧ u.ReadsBack ∧ u.WellScoped := by
  obtain ⟨u, hu, htext⟩ := tryEmit_eq_ok.1 h
  obtain ⟨s, hs, rfl⟩ := emitUnit_eq_ok.1 hu
  exact ⟨_, hu, htext, rfl, SourceUnit.map_text_body _, hs.readsBack, hs.wellScoped⟩

/-- A sum of two inputs whose labels, and that of the output, give the same identifier. -/
def twins : Graph where
  nodes :=
    [Exhibit.secret "x" "Twin Sum", Exhibit.exposed "y" "twin-sum", Exhibit.operation "z" .add,
     Exhibit.output "o" .number "twinSum"]
  edges := [Graph.wire "x" "z" "a", Graph.wire "y" "z" "b", Graph.wire "z" "o" "in"]

/-- The twins are told apart. -/
theorem wellScoped_twins :
    ∃ code, tryEmit {} ⟨twins.index, twins.vertices⟩ = .ok code ∧
      ∃ u, emitUnit {} ⟨twins.index, twins.vertices⟩ = .ok u ∧ u.text = code ∧
        u.template = ({} : Config).templateName ∧ u.body.map Line.text = u.bodyLines ∧
        u.ReadsBack ∧ u.WellScoped := by
  have hisOk : (emitUnit {} ⟨twins.index, twins.vertices⟩).isOk = true := rfl
  cases hemit : emitUnit {} ⟨twins.index, twins.vertices⟩ with
  | error e =>
    rw [hemit] at hisOk
    cases hisOk
  | ok u =>
    have htext := tryEmit_eq_ok.2 ⟨u, hemit, rfl⟩
    exact ⟨u.text, htext, hemit ▸ wellScoped_of_tryEmit htext⟩

end CircuitGraph.Circom
