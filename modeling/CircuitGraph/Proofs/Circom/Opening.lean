import CircuitGraph.Proofs.Circom.Layout

/-!
# How lines begin

A reader of emitted text tells a declaration or an assignment by the words with which a line begins
behind its indentation (`begins`). `Line.begins_words_iff` says that the words are not misleading: a
line begins with those of a `Lead` only when it is a line of this kind. Every line consists of a
word and a rest that does not go on with the word, so only lines with the same word are to be told
apart, and they are told apart by the first characters of the rest.
-/

namespace CircuitGraph.Circom

open CircuitGraph.Text

/-! ## Words -/

/-- Whether a line begins with the given words behind its indentation. -/
def begins (words line : String) : Bool :=
  words.toList.isPrefixOf (line.toList.dropWhile (· == ' '))

/-- Indentation is left aside. -/
theorem begins_indent (words line : String) :
    begins words (indent ++ line) = begins words line := by
  have hindent : indent.toList = [' ', ' ', ' ', ' '] := rfl
  rw [begins, begins, String.toList_append, hindent]
  rfl

/-- Characters that are a word and what does not go on with it, without indentation. -/
structure Opens (chars word rest : List Char) : Prop where
  /-- The characters are those of the word and the rest. -/
  eq_append : chars = word ++ rest
  /-- The word is made of characters of words. -/
  isWord : ∀ c ∈ word, IsWordChar c
  /-- The rest begins with another character. -/
  ends : ∀ c ∈ rest.head?, ¬ IsWordChar c
  /-- No blank stands in front. -/
  head_ne : chars.head? ≠ some ' '

/-- A word and what is behind it can be read off their beginning. -/
theorem append_prefix_append_iff {word rest name more : List Char}
    (hword : ∀ c ∈ word, IsWordChar c) (hrest : ∀ c ∈ rest.head?, ¬ IsWordChar c)
    (hname : ∀ c ∈ name, IsWordChar c) (hmore : ∃ c ∈ more.head?, ¬ IsWordChar c) :
    name ++ more <+: word ++ rest ↔ name = word ∧ more <+: rest := by
  induction name generalizing word with
  | nil =>
    obtain ⟨c, hc, hnot⟩ := hmore
    obtain ⟨more, rfl⟩ := List.head?_eq_some_iff.1 hc
    cases word with
    | nil => simp
    | cons d word =>
      have hne : c ≠ d := fun heq => hnot (heq ▸ hword d List.mem_cons_self)
      simp [hne]
  | cons c name ih =>
    rw [List.forall_mem_cons] at hname
    cases word with
    | nil =>
      have hprefix : ¬ c :: (name ++ more) <+: rest := by
        rintro ⟨suffix, rfl⟩
        exact hrest c rfl hname.1
      simpa using hprefix
    | cons d word =>
      rw [List.forall_mem_cons] at hword
      rw [List.cons_append, List.cons_append, List.cons_prefix_cons, ih hword.2 hname.2,
        List.cons.injEq, and_assoc]

/-- A line begins with an identifier and more when it opens with the identifier and goes on with the
rest. -/
theorem Opens.begins_iff {line : String} {word rest : List Char} (h : Opens line.toList word rest)
    {name more : String} (hname : isIdentifier name = true)
    (hmore : ∃ c ∈ more.toList.head?, ¬ IsWordChar c) :
    begins (name ++ more) line = true ↔ name.toList = word ∧ more.toList <+: rest := by
  have hdrop : line.toList.dropWhile (· == ' ') = line.toList := by
    have hhead := h.head_ne
    cases hlist : line.toList with
    | nil => rfl
    | cons c cs =>
      rw [hlist] at hhead
      exact List.dropWhile_cons_of_neg (by simpa using hhead)
  rw [begins, hdrop, h.eq_append, List.isPrefixOf_iff_prefix, String.toList_append,
    append_prefix_append_iff h.isWord h.ends (isWordChar_of_isIdentifier hname) hmore]

/-- What begins with a word opens with it. -/
theorem opens_append {word rest : List Char} (hne : word ≠ []) (hword : ∀ c ∈ word, IsWordChar c)
    (hrest : ∀ c ∈ rest.head?, ¬ IsWordChar c) : Opens (word ++ rest) word rest where
  eq_append := rfl
  isWord := hword
  ends := hrest
  head_ne := by
    obtain ⟨c, word, rfl⟩ := List.exists_cons_of_ne_nil hne
    rintro heq
    cases heq
    exact absurd (hword ' ' List.mem_cons_self) (by decide)

/-! ## Leads -/

/-- A kind of line that can be told by its first words. -/
inductive Lead
  /-- The declaration of an input. -/
  | input
  /-- The declaration of an output. -/
  | output
  /-- The assignment of a value, with a constraint, to the signal of the given name. -/
  | assigns (name : String)
deriving DecidableEq, Repr

namespace Lead

/-- The first word. -/
def word : Lead → String
  | input | output => "signal"
  | assigns name => name

/-- What comes behind the first word. -/
def rest : Lead → String
  | input => " input "
  | output => " output "
  | assigns _ => " <== "

/-- The first words. -/
def words (lead : Lead) : String := lead.word ++ lead.rest

/-- What comes behind the first word does not go on with it. -/
theorem exists_head_rest (lead : Lead) : ∃ c ∈ lead.rest.toList.head?, ¬ IsWordChar c := by
  refine ⟨' ', Option.mem_def.2 ?_, by decide⟩
  cases lead with
  | _ => simp [rest]

end Lead

/-- The kind of a statement that can be told by its first words. -/
def Statement.lead? : Statement → Option Lead
  | constrain ⟨name, []⟩ _ => some (.assigns name)
  | _ => none

/-- The kind of a line that can be told by its first words. -/
def Line.lead? : Line → Option Lead
  | input _ => some .input
  | output _ => some .output
  | statement _ s => s.lead?
  | blank | heading _ | loopStart _ | loopEnd => none

/-- Whether what comes behind a word belongs to none of the kinds: a step to a part of a signal, a
parenthesis, or a sign other than that of an assignment with a constraint. -/
def stops : List Char → Bool
  | ' ' :: '<' :: c :: _ => c == '-'
  | ' ' :: c :: _ => ['+', '-', '*', '/', '\\', '%', '=', '('].contains c
  | c :: _ => ['.', '[', '('].contains c
  | [] => false

/-- What belongs to none of the kinds does not go on with a word. -/
theorem not_isWordChar_of_stops {rest : List Char} (h : stops rest = true) :
    ∀ c ∈ rest.head?, ¬ IsWordChar c := by
  unfold stops at h
  split at h
  · rintro c hc
    cases hc
    decide
  · rintro c hc
    cases hc
    decide
  · rintro c hc
    cases hc
    rcases (by simpa using h : _ = '.' ∨ _ = '[' ∨ _ = '(') with rfl | rfl | rfl
    all_goals decide
  · cases h

/-- What belongs to none of the kinds does not begin like one of them. -/
theorem Lead.not_prefix_of_stops (lead : Lead) {rest : List Char} (h : stops rest = true) :
    ¬ lead.rest.toList <+: rest := by
  rintro ⟨more, rfl⟩
  cases lead with
  | _ => simp [rest, stops] at h

/-- A line that goes on with nothing that belongs to one of the kinds does not begin like them. -/
theorem Opens.not_begins {line : String} {word rest : List Char} (h : Opens line.toList word rest)
    (hstops : stops rest = true) {lead : Lead} (hlead : isIdentifier lead.word = true) :
    ¬ begins lead.words line = true := by
  rw [Lead.words, h.begins_iff hlead lead.exists_head_rest]
  exact fun hprefix => lead.not_prefix_of_stops hstops hprefix.2

/-! ## References and expressions -/

/-- Behind the name of a reference come the steps, which belong to none of the kinds. -/
theorem Ref.exists_opens {r : Ref} (h : isIdentifier r.name = true) {more : List Char}
    (hmore : r.path = [] → stops more = true) :
    ∃ rest, Opens (r.text.toList ++ more) r.name.toList rest ∧ stops rest = true := by
  have hstops : stops ((String.join (r.path.map Accessor.text)).toList ++ more) = true := by
    cases hpath : r.path with
    | nil => simpa using hmore hpath
    | cons a path =>
      cases a with
      | _ => simp [Accessor.text, toString, stops]
  obtain ⟨c, cs, hlist⟩ := exists_cons_of_isIdentifier h
  refine ⟨_, ?_, hstops⟩
  rw [text, String.toList_append, List.append_assoc]
  exact opens_append (by simp [hlist]) (isWordChar_of_isIdentifier h)
    (not_isWordChar_of_stops hstops)

/-- A line that begins with a reference does not begin like one of the kinds, unless the sign of an
assignment follows a name without steps. -/
theorem Ref.not_begins {r : Ref} {line : String} {more : List Char}
    (h : isIdentifier r.name = true) (hline : line.toList = r.text.toList ++ more)
    (hmore : r.path = [] → stops more = true) {lead : Lead}
    (hlead : isIdentifier lead.word = true) : ¬ begins lead.words line = true := by
  obtain ⟨rest, hopens, hstops⟩ := Ref.exists_opens h hmore
  rw [← hline] at hopens
  exact hopens.not_begins hstops hlead

/-- An expression opens with a word, behind which comes nothing that belongs to one of the kinds. -/
theorem Expr.exists_opens {e : Expr} (h : ∀ n ∈ e.mentions, isIdentifier n = true) (least : Nat)
    {more : List Char} (hmore : stops more = true) :
    ∃ word rest, Opens ((e.textAt least).toList ++ more) word rest ∧ stops rest = true := by
  induction e generalizing least more with
  | ref r =>
    obtain ⟨rest, hopens, hstops⟩ :=
      Ref.exists_opens (h r.name (List.mem_singleton_self _)) fun _ => hmore
    exact ⟨r.name.toList, rest, hopens, hstops⟩
  | const n =>
    have hne : n.repr.toList ≠ [] := by
      rw [Nat.toList_repr]
      exact Nat.toDigits_ne_nil
    refine ⟨n.repr.toList, more, ?_, hmore⟩
    exact opens_append hne (fun c hc => isWordChar_of_mem_repr hc) (not_isWordChar_of_stops hmore)
  | binary op left right ihleft _ =>
    have hleft : ∀ n ∈ left.mentions, isIdentifier n = true := fun n hn => h n (by simp [hn])
    let operand := right.textAt (op.precedence + 1)
    let behind := (op.symbol ++ " " ++ operand).toList
    have hsymbol (more : List Char) : stops (' ' :: (behind ++ more)) = true := by
      cases op with
      | _ => simp [behind, BinaryOp.symbol, stops]
    unfold textAt
    dsimp only
    split
    · -- in front of a parenthesis stands no word
      refine ⟨[], '(' :: ((left.textAt op.precedence).toList ++ ' ' :: (behind ++ ')' :: more)), ?_,
        rfl⟩
      exact
        { eq_append := by simp [toString, behind, operand]
          isWord := fun _ hc => absurd hc List.not_mem_nil
          ends := not_isWordChar_of_stops rfl
          head_ne := by simp [toString] }
    · obtain ⟨word, rest, hopens, hstops⟩ := ihleft hleft op.precedence (hsymbol more)
      refine ⟨word, rest, ?_, hstops⟩
      have htext : (left.textAt op.precedence).toList ++ ' ' :: (behind ++ more) =
          (s!"{left.textAt op.precedence} {op.symbol} {operand}").toList ++ more := by
        simp [toString, behind]
      rwa [htext] at hopens

/-! ## Statements -/

/-- An identifier does not begin like the sign of an assignment. -/
theorem not_assigns_prefix {name : String} (h : isIdentifier name = true) (rest : List Char) :
    ¬ " <== ".toList <+: ' ' :: (name.toList ++ rest) := by
  obtain ⟨c, cs, hlist⟩ := exists_cons_of_isIdentifier h
  have hc : IsWordChar c := isWordChar_of_isIdentifier h c (hlist ▸ List.mem_cons_self)
  have hne : '<' ≠ c := fun heq => absurd (heq ▸ hc) (by decide)
  simp [hlist, hne]

/-- A name that no blank follows is not the second word of a declaration. -/
theorem Lead.not_prefix_of_isIdentifier (lead : Lead) {name : String}
    (h : isIdentifier name = true) {rest : List Char}
    (hrest : ∀ c ∈ rest.head?, ¬ IsWordChar c ∧ c ≠ ' ') :
    ¬ lead.rest.toList <+: ' ' :: (name.toList ++ rest) := by
  have hdeclaration (word : String) (hword : isIdentifier word = true) :
      ¬ ' ' :: (word.toList ++ [' ']) <+: ' ' :: (name.toList ++ rest) := by
    rw [List.cons_prefix_cons, append_prefix_append_iff (isWordChar_of_isIdentifier h)
      (fun c hc => (hrest c hc).1) (isWordChar_of_isIdentifier hword) ⟨' ', rfl, by decide⟩]
    rintro ⟨-, -, ⟨more, rfl⟩⟩
    exact (hrest ' ' rfl).2 rfl
  cases lead with
  | input => exact hdeclaration "input" (by decide)
  | output => exact hdeclaration "output" (by decide)
  | assigns _ => exact not_assigns_prefix h rest

/-- What begins with an identifier and a blank opens with the identifier. -/
theorem opens_keyword {line word : String} {rest : List Char} (h : isIdentifier word = true)
    (hline : line.toList = word.toList ++ ' ' :: rest) :
    Opens line.toList word.toList (' ' :: rest) := by
  obtain ⟨c, cs, hlist⟩ := exists_cons_of_isIdentifier h
  rw [hline]
  refine opens_append (by simp [hlist]) (isWordChar_of_isIdentifier h) fun c hc => ?_
  cases hc
  decide

/-- A line with another first word does not begin like a kind. -/
theorem not_begins_of_ne {line word : String} {rest : List Char} (h : isIdentifier word = true)
    (hline : line.toList = word.toList ++ ' ' :: rest) {lead : Lead}
    (hlead : isIdentifier lead.word = true) (hne : lead.word ≠ word) :
    ¬ begins lead.words line = true := by
  rw [Lead.words, (opens_keyword h hline).begins_iff hlead lead.exists_head_rest]
  exact fun hprefix => hne (String.toList_inj.1 hprefix.1)

/-- The declaration of a signal inside of a template does not begin like one of the kinds. -/
theorem not_begins_signal {line name : String} {rest : List Char} (h : isIdentifier name = true)
    (hrest : ∀ c ∈ rest.head?, ¬ IsWordChar c ∧ c ≠ ' ')
    (hline : line.toList = "signal".toList ++ ' ' :: (name.toList ++ rest)) {lead : Lead}
    (hlead : isIdentifier lead.word = true) : ¬ begins lead.words line = true := by
  have hopens := opens_keyword (by decide) hline
  rw [Lead.words, hopens.begins_iff hlead lead.exists_head_rest]
  exact fun hprefix => lead.not_prefix_of_isIdentifier h hrest hprefix.2

/-- The declaration of a component does not begin like one of the kinds. -/
theorem not_begins_component {line name : String} {rest : List Char} (h : isIdentifier name = true)
    (hline : line.toList = "component".toList ++ ' ' :: (name.toList ++ rest)) {lead : Lead}
    (hlead : isIdentifier lead.word = true) : ¬ begins lead.words line = true := by
  cases lead with
  | input | output => exact not_begins_of_ne (by decide) hline hlead (by decide)
  | assigns name' =>
    have hopens := opens_keyword (by decide) hline
    rw [Lead.words, hopens.begins_iff hlead (Lead.assigns name').exists_head_rest]
    exact fun hprefix => not_assigns_prefix h rest hprefix.2

/-- A line that does not begin like a kind is not told to be of that kind, if it is told to be of
none. -/
theorem iff_of_not_begins {line : String} {lead : Lead} (h : ¬ begins lead.words line = true) :
    begins lead.words line = true ↔ none = some lead :=
  iff_of_false h (Option.some_ne_none lead).symm

/-- A statement begins with the words of a kind when it is of this kind. -/
theorem Statement.begins_words_iff {s : Statement}
    (h : ∀ n ∈ s.declares ++ s.mentions, isIdentifier n = true) {lead : Lead}
    (hlead : isIdentifier lead.word = true) :
    begins lead.words s.text = true ↔ s.lead? = some lead := by
  cases s with
  | signal name =>
    have htext : (signal name).text.toList = "signal".toList ++ ' ' :: (name.toList ++ [';']) := by
      simp [text, toString]
    exact iff_of_not_begins (not_begins_signal (h name (by simp)) (by simp; decide) htext hlead)
  | signalArray name size =>
    have htext : (signalArray name size).text.toList =
        "signal".toList ++ ' ' :: (name.toList ++ '[' :: (size.repr ++ "];").toList) := by
      simp [text, toString]
    exact iff_of_not_begins (not_begins_signal (h name (by simp)) (by simp; decide) htext hlead)
  | component name template =>
    have htext : (component name template).text.toList =
        "component".toList ++ ' ' :: (name.toList ++ (" = " ++ template.text ++ ";").toList) := by
      simp [text, toString]
    exact iff_of_not_begins (not_begins_component (h name (by simp)) htext hlead)
  | componentArray name size =>
    have htext : (componentArray name size).text.toList =
        "component".toList ++ ' ' :: (name.toList ++ ("[" ++ size.repr ++ "];").toList) := by
      simp [text, toString]
    exact iff_of_not_begins (not_begins_component (h name (by simp)) htext hlead)
  | instantiate target template =>
    have htext : (instantiate target template).text.toList =
        target.text.toList ++ (" = ".toList ++ (template.text ++ ";").toList) := by
      simp [text, toString]
    exact iff_of_not_begins (Ref.not_begins (h target.name (by simp)) htext (fun _ => rfl) hlead)
  | constrain target value =>
    have hname : isIdentifier target.name = true := h target.name (by simp)
    have htext : (constrain target value).text.toList =
        target.text.toList ++ ' ' :: ("<== ".toList ++ (value.text ++ ";").toList) := by
      simp [text, toString]
    obtain ⟨name, path⟩ := target
    cases path with
    | nil =>
      rw [show Ref.text ⟨name, []⟩ = name from text_signalRef name] at htext
      have hopens := opens_keyword hname htext
      rw [Lead.words, hopens.begins_iff hlead lead.exists_head_rest]
      cases lead with
      | input | output => simp [Lead.rest, lead?]
      | assigns other => simp [Lead.word, Lead.rest, lead?, String.toList_inj, eq_comm]
    | cons a path => exact iff_of_not_begins (Ref.not_begins hname htext (by simp) hlead)
  | assign target value =>
    have htext : (assign target value).text.toList =
        target.text.toList ++ (" <-- ".toList ++ (value.text ++ ";").toList) := by
      simp [text, toString]
    exact iff_of_not_begins (Ref.not_begins (h target.name (by simp)) htext (fun _ => rfl) hlead)
  | equate left right =>
    have htext : (equate left right).text.toList =
        (left.textAt 0).toList ++ (" === ".toList ++ (right.text ++ ";").toList) := by
      simp [text, Expr.text, toString]
    have hleft : ∀ n ∈ left.mentions, isIdentifier n = true := fun n hn => h n (by simp [hn])
    obtain ⟨word, rest, hopens, hstops⟩ := left.exists_opens hleft 0
      (show stops (" === ".toList ++ (right.text ++ ";").toList) = true from rfl)
    rw [← htext] at hopens
    exact iff_of_not_begins (hopens.not_begins hstops hlead)

/-! ## Lines -/

/-- An empty line does not begin like one of the kinds. -/
theorem not_begins_blank {lead : Lead} (hlead : isIdentifier lead.word = true) :
    ¬ begins lead.words "" = true := by
  have hopens : Opens "".toList [] [] := ⟨rfl, nofun, nofun, nofun⟩
  obtain ⟨c, hc, -⟩ := lead.exists_head_rest
  rw [Lead.words, hopens.begins_iff hlead lead.exists_head_rest, List.prefix_nil]
  rintro ⟨-, hnil⟩
  rw [hnil] at hc
  cases hc

/-- A line that begins with a sign does not begin like one of the kinds. -/
theorem not_begins_sign {line : String} {c : Char} {rest : List Char}
    (hline : line.toList = c :: rest) (hc : ¬ IsWordChar c) (hne : c ≠ ' ') {lead : Lead}
    (hlead : isIdentifier lead.word = true) : ¬ begins lead.words line = true := by
  have hopens : Opens line.toList [] (c :: rest) :=
    { eq_append := hline
      isWord := fun _ hc => absurd hc List.not_mem_nil
      ends := fun d hd => Option.some.inj hd ▸ hc
      head_ne := by simpa [hline] using hne }
  rw [Lead.words, hopens.begins_iff hlead lead.exists_head_rest]
  rintro ⟨-, hprefix⟩
  cases lead with
  | _ => exact hne (List.cons_prefix_cons.1 (by simpa [Lead.rest] using hprefix)).1.symm

/-- A line of a body begins with the words of a kind when it is of this kind. -/
theorem Line.begins_words_iff {line : Line}
    (h : ∀ n ∈ line.declares ++ line.mentions, isIdentifier n = true) {lead : Lead}
    (hlead : isIdentifier lead.word = true) :
    begins lead.words line.text = true ↔ line.lead? = some lead := by
  cases line with
  | input d =>
    have htext : ∃ more, d.text.toList = "signal".toList ++ ' ' :: ("input ".toList ++ more) := by
      unfold InputDecl.text
      cases d.size with
      | none => exact ⟨d.name.toList ++ [';'], by simp [toString]⟩
      | some size => exact ⟨d.name.toList ++ '[' :: (size.repr ++ "];").toList, by simp [toString]⟩
    obtain ⟨more, htext⟩ := htext
    have hopens := opens_keyword (by decide) htext
    rw [text, begins_indent, Lead.words, hopens.begins_iff hlead lead.exists_head_rest]
    cases lead with
    | _ => simp [Lead.word, Lead.rest, lead?]
  | output name =>
    have htext : (s!"signal output {name};").toList =
        "signal".toList ++ ' ' :: ("output ".toList ++ (name ++ ";").toList) := by
      simp [toString]
    have hopens := opens_keyword (by decide) htext
    rw [text, begins_indent, Lead.words, hopens.begins_iff hlead lead.exists_head_rest]
    cases lead with
    | _ => simp [Lead.word, Lead.rest, lead?]
  | blank => exact iff_of_not_begins (not_begins_blank hlead)
  | heading heading =>
    have htext : heading.text.toList =
        '/' :: ("/ ".toList ++ (heading.name ++ ": " ++ heading.kind).toList) := by
      simp [Heading.text, toString]
    rw [text, begins_indent]
    exact iff_of_not_begins (not_begins_sign htext (by decide) (by decide) hlead)
  | statement inLoop s =>
    have hindent : begins lead.words (text (.statement inLoop s)) = begins lead.words s.text := by
      cases inLoop with
      | false => exact begins_indent _ _
      | true => exact (begins_indent _ _).trans (begins_indent _ _)
    rw [hindent]
    exact Statement.begins_words_iff h hlead
  | loopStart count =>
    let i := counterName
    have htext : (s!"for (var {i} = 0; {i} < {count}; {i}++) \x7b").toList =
        "for".toList ++ ' ' :: ("(var ".toList ++
          (i ++ " = 0; " ++ i ++ " < " ++ count.repr ++ "; " ++ i ++ "++) \x7b").toList) := by
      simp [toString]
    have hopens := opens_keyword (by decide) htext
    rw [text, begins_indent]
    exact iff_of_not_begins (hopens.not_begins rfl hlead)
  | loopEnd =>
    rw [text, begins_indent]
    exact iff_of_not_begins (not_begins_sign rfl (by decide) (by decide) hlead)

end CircuitGraph.Circom
