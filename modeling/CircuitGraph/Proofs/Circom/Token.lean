import CircuitGraph.Proofs.Circom.Mention
import CircuitGraph.Proofs.Text.Word

/-!
# Statements are read back

A statement is written as a list of tokens: references, numbers, operators and signs. When its names
are identifiers, the text falls into tokens in one way only (`eq_of_charsOf_eq`): a reference and a
number are not followed by a character that could belong to them, and the other tokens are told by
their first characters.

The tokens of an expression are those of one expression only (`Expr.eq_of_tokensAt_eq`). They are
read from the back. The last operator outside of parentheses is the topmost one among those that
bind most weakly, because operators associate to the left, and what is behind it binds more tightly.
-/

namespace CircuitGraph.Circom

open CircuitGraph.Text

/-! ## Legible references -/

/-- If a step leads to a signal of a component, the name of the signal is an identifier. -/
def Accessor.IsLegible : Accessor → Prop
  | element _ => True
  | field name => isIdentifier name = true

/-- All names in a reference are identifiers. -/
structure Ref.IsLegible (r : Ref) : Prop where
  /-- The name of the signal is an identifier. -/
  name : isIdentifier r.name = true
  /-- The names of signals of components are identifiers. -/
  path : ∀ a ∈ r.path, a.IsLegible

/-- Nothing that belongs to a word begins a text. -/
def EndsWord (s : List Char) : Prop := ∀ c ∈ s.head?, ¬ IsWordChar c

/-- Nothing that belongs to a reference begins a text. -/
def EndsRef (s : List Char) : Prop := ∀ c ∈ s.head?, ¬ IsWordChar c ∧ c ≠ '[' ∧ c ≠ '.'

variable {s s' : List Char}

/-- A text that a sign begins does not go on with a word. -/
theorem endsWord_cons {c : Char} (h : ¬ IsWordChar c) : EndsWord (c :: s) := fun _ hd =>
  Option.some.inj hd ▸ h

/-- What does not belong to a reference does not belong to a word. -/
theorem EndsRef.endsWord (h : EndsRef s) : EndsWord s := fun c hc => (h c hc).1

/-- A number and what is behind it are read off the text. -/
theorem eq_of_repr_append {m n : Nat} (hs : EndsWord s) (hs' : EndsWord s')
    (h : m.repr.toList ++ s = n.repr.toList ++ s') : m = n ∧ s = s' := by
  have hword (n : Nat) : ∀ c ∈ n.repr.toList, IsWordChar c := fun c => isWordChar_of_mem_repr
  obtain ⟨hdigits, hrest⟩ := eq_and_eq_of_append_eq (hword m) (hword n) hs hs' h
  exact ⟨repr_injective (String.toList_inj.1 hdigits), hrest⟩

/-- An identifier and what is behind it are read off the text. -/
theorem eq_of_identifier_append {name name' : String} (hname : isIdentifier name = true)
    (hname' : isIdentifier name' = true) (hs : EndsWord s) (hs' : EndsWord s')
    (h : name.toList ++ s = name'.toList ++ s') : name = name' ∧ s = s' := by
  obtain ⟨htext, hrest⟩ := eq_and_eq_of_append_eq (isWordChar_of_isIdentifier hname)
    (isWordChar_of_isIdentifier hname') hs hs' h
  exact ⟨String.toList_inj.1 htext, hrest⟩

/-- A number does not begin like an identifier. -/
theorem repr_append_ne_identifier {n : Nat} {name : String} (hname : isIdentifier name = true) :
    n.repr.toList ++ s ≠ name.toList ++ s' := by
  obtain ⟨c, cs, hdigits, hdigit⟩ := exists_toDigits_eq_cons n
  obtain ⟨d, ds, htext, hd, -⟩ := isIdentifier_iff.1 hname
  rw [Nat.toList_repr, hdigits, htext, List.cons_append, List.cons_append]
  intro h
  obtain ⟨rfl, -⟩ := List.cons.inj h
  rcases hd with halpha | rfl
  · rw [isAlpha_iff] at halpha
    rw [isDigit_iff] at hdigit
    omega
  · cases hdigit

/-- A subscript and what is behind its bracket are read off the text. -/
theorem Subscript.eq_of_append {a b : Subscript}
    (h : a.text.toList ++ ']' :: s = b.text.toList ++ ']' :: s') : a = b ∧ s = s' := by
  have hends (s : List Char) : EndsWord (']' :: s) := endsWord_cons (by decide)
  have hcounter : isIdentifier counterName = true := by decide
  -- the counter alone, and the counter with an offset, are the two forms that begin with its name
  have hname (offset : Nat) :
      ∃ rest, (counter offset).text.toList = counterName.toList ++ rest := by
    cases offset with
    | zero => exact ⟨[], by simp [text]⟩
    | succ offset => exact ⟨_, by simp [text, toString]; rfl⟩
  cases a with
  | fixed m =>
    cases b with
    | fixed n =>
      obtain ⟨rfl, hrest⟩ := eq_of_repr_append (hends s) (hends s') h
      exact ⟨rfl, (List.cons.inj hrest).2⟩
    | counter offset =>
      obtain ⟨rest, htext⟩ := hname offset
      rw [htext, List.append_assoc] at h
      exact absurd h (repr_append_ne_identifier hcounter)
  | counter offset =>
    cases b with
    | fixed n =>
      obtain ⟨rest, htext⟩ := hname offset
      rw [htext, List.append_assoc] at h
      exact absurd h.symm (repr_append_ne_identifier hcounter)
    | counter offset' =>
      cases offset with
      | zero =>
        cases offset' with
        | zero => exact ⟨rfl, by simpa [text] using h⟩
        | succ offset' => simp [text, counterName, toString] at h
      | succ offset =>
        cases offset' with
        | zero => simp [text, counterName, toString] at h
        | succ offset' =>
          have hnumber : (offset + 1).repr.toList ++ ']' :: s =
              (offset' + 1).repr.toList ++ ']' :: s' := by
            simpa [text, toString] using h
          obtain ⟨heq, hrest⟩ := eq_of_repr_append (hends s) (hends s') hnumber
          rw [heq]
          exact ⟨rfl, (List.cons.inj hrest).2⟩

/-- A step and what is behind it are read off the text. -/
theorem Accessor.eq_of_append {a b : Accessor} (ha : a.IsLegible) (hb : b.IsLegible)
    (hs : EndsWord s) (hs' : EndsWord s') (h : a.text.toList ++ s = b.text.toList ++ s') :
    a = b ∧ s = s' := by
  cases a with
  | element m =>
    cases b with
    | element n =>
      have hsubscript : m.text.toList ++ ']' :: s = n.text.toList ++ ']' :: s' := by
        simpa [text, toString] using h
      obtain ⟨rfl, hrest⟩ := Subscript.eq_of_append hsubscript
      exact ⟨rfl, hrest⟩
    | field name => simp [text, toString] at h
  | field name =>
    cases b with
    | element n => simp [text, toString] at h
    | field name' =>
      have hname : name.toList ++ s = name'.toList ++ s' := by simpa [text, toString] using h
      obtain ⟨rfl, hrest⟩ := eq_of_identifier_append ha hb hs hs' hname
      exact ⟨rfl, hrest⟩

/-- The characters of the steps to a part. -/
def pathChars (path : List Accessor) : List Char := path.flatMap fun a => a.text.toList

/-- A step begins with a bracket or a dot. -/
theorem Accessor.exists_text_eq_cons (a : Accessor) :
    ∃ c cs, a.text.toList = c :: cs ∧ (c = '[' ∨ c = '.') := by
  cases a with
  | element m => exact ⟨'[', _, by simp [text, toString]; rfl, .inl rfl⟩
  | field name => exact ⟨'.', _, by simp [text, toString]; rfl, .inr rfl⟩

/-- Behind a word, steps and what does not belong to a reference do not go on with the word. -/
theorem endsWord_pathChars (path : List Accessor) (hs : EndsRef s) :
    EndsWord (pathChars path ++ s) := by
  cases path with
  | nil => exact hs.endsWord
  | cons a path =>
    obtain ⟨c, cs, htext, hc⟩ := a.exists_text_eq_cons
    rw [pathChars, List.flatMap_cons, htext]
    exact endsWord_cons (by rcases hc with rfl | rfl <;> decide)

/-- The steps are read off the text behind them. -/
theorem eq_of_pathChars_append {path path' : List Accessor} (hpath : ∀ a ∈ path, a.IsLegible)
    (hpath' : ∀ a ∈ path', a.IsLegible) (hs : EndsRef s) (hs' : EndsRef s')
    (h : pathChars path ++ s = pathChars path' ++ s') : path = path' := by
  -- a text that does not belong to a reference does not begin like a step
  have hstep {a : Accessor} {path : List Accessor} {s s' : List Char} (hs : EndsRef s) :
      s ≠ pathChars (a :: path) ++ s' := by
    obtain ⟨c, cs, htext, hc⟩ := a.exists_text_eq_cons
    rw [pathChars, List.flatMap_cons, htext]
    rintro rfl
    obtain ⟨-, hbracket, hdot⟩ := hs c rfl
    exact hc.elim hbracket hdot
  induction path generalizing path' with
  | nil =>
    cases path' with
    | nil => rfl
    | cons b path' => exact absurd h (hstep hs)
  | cons a path ih =>
    cases path' with
    | nil => exact absurd h.symm (hstep hs')
    | cons b path' =>
      rw [List.forall_mem_cons] at hpath hpath'
      rw [pathChars, pathChars, List.flatMap_cons, List.flatMap_cons, List.append_assoc,
        List.append_assoc] at h
      obtain ⟨rfl, hrest⟩ := Accessor.eq_of_append hpath.1 hpath'.1 (endsWord_pathChars path hs)
        (endsWord_pathChars path' hs') h
      rw [ih hpath.2 hpath'.2 hrest]

namespace Ref

/-- The characters of a reference are those of its name and of its steps. -/
theorem toList_text (r : Ref) : r.text.toList = r.name.toList ++ pathChars r.path := by
  have hjoin (path : List Accessor) :
      (String.join (path.map Accessor.text)).toList = pathChars path := by
    induction path with
    | nil => rfl
    | cons a path ih => simpa [pathChars] using ih
  rw [text, String.toList_append, hjoin]

/-- A reference is read off the text behind it. -/
theorem eq_of_append {r r' : Ref} (hr : r.IsLegible) (hr' : r'.IsLegible) (hs : EndsRef s)
    (hs' : EndsRef s') (h : r.text.toList ++ s = r'.text.toList ++ s') : r = r' := by
  rw [toList_text, toList_text, List.append_assoc, List.append_assoc] at h
  obtain ⟨hname, hrest⟩ := eq_of_identifier_append hr.name hr'.name (endsWord_pathChars r.path hs)
    (endsWord_pathChars r'.path hs') h
  have hpath := eq_of_pathChars_append hr.path hr'.path hs hs' hrest
  obtain ⟨name, path⟩ := r
  obtain ⟨name', path'⟩ := r'
  exact congrArg₂ Ref.mk hname hpath

end Ref

/-- A template and what is behind it are read off the text. -/
theorem Template.eq_of_append {t t' : Template}
    (h : t.text.toList ++ s = t'.text.toList ++ s') : t = t' := by
  have hends (s : List Char) : EndsWord (')' :: s) := endsWord_cons (by decide)
  have hnumber {m n : Nat} (h : m.repr.toList ++ ')' :: s = n.repr.toList ++ ')' :: s') : m = n :=
    (eq_of_repr_append (hends s) (hends s') h).1
  -- the names are told by their first characters
  cases t <;> cases t' <;> simp [text, toString] at h <;>
    first | rfl | exact congrArg _ (hnumber (by simpa using h))

/-! ## Tokens -/

/-- A part of a statement. -/
inductive Token
  /-- A reference. -/
  | ref (r : Ref)
  /-- A number. -/
  | const (n : Nat)
  /-- An operator between blanks. -/
  | op (o : BinaryOp)
  /-- An opening parenthesis. -/
  | opening
  /-- A closing parenthesis. -/
  | closing
  /-- A blank in front of a name. -/
  | blank
  /-- The sign of an assignment with a constraint. -/
  | constrains
  /-- The sign of an assignment without a constraint. -/
  | assigns
  /-- The sign of a constraint. -/
  | equals
  /-- The template of which a component is an instance. -/
  | makes (t : Template)
deriving DecidableEq, Repr

namespace Token

/-- The text of a token. -/
def text : Token → String
  | ref r => r.text
  | const n => toString n
  | op o => s!" {o.symbol} "
  | opening => "("
  | closing => ")"
  | blank => " "
  | constrains => " <== "
  | assigns => " <-- "
  | equals => " === "
  | makes t => s!" = {t.text}"

/-- Whether a token stands for a value. -/
def isOperand : Token → Bool
  | ref _ | const _ => true
  | _ => false

/-- If a token is a reference, it is legible. -/
def IsLegible : Token → Prop
  | ref r => r.IsLegible
  | _ => True

/-- A text may stand behind a token: it does not go on with a value, and a blank stands in front of
a name. -/
def Stops : Token → List Char → Prop
  | ref _, s | const _, s => EndsRef s
  | blank, s => ∃ c ∈ s.head?, IsWordChar c
  | _, _ => True

/-- A value begins with a character of a word. -/
theorem exists_text_eq_cons_of_isOperand {t : Token} (ht : t.IsLegible)
    (h : t.isOperand = true) : ∃ c cs, t.text.toList = c :: cs ∧ IsWordChar c := by
  cases t with
  | ref r =>
    obtain ⟨c, cs, hlist⟩ := exists_cons_of_isIdentifier ht.name
    have hc : IsWordChar c := isWordChar_of_isIdentifier ht.name c (hlist ▸ List.mem_cons_self)
    exact ⟨c, cs ++ pathChars r.path, by rw [text, Ref.toList_text, hlist]; rfl, hc⟩
  | const n =>
    obtain ⟨c, cs, hlist, hc⟩ := exists_toDigits_eq_cons n
    refine ⟨c, cs, (Nat.toList_repr).trans hlist, .inl ?_⟩
    rw [Char.isAlphanum, hc, Bool.or_true]
  | _ => cases h

/-- Any other token begins with a blank or a parenthesis. -/
theorem exists_text_eq_cons_of_not_isOperand {t : Token} (h : t.isOperand = false) :
    ∃ c cs, t.text.toList = c :: cs ∧ (c = ' ' ∨ c = '(' ∨ c = ')') := by
  cases t with
  | ref r => cases h
  | const n => cases h
  | opening => exact ⟨'(', [], rfl, .inr (.inl rfl)⟩
  | closing => exact ⟨')', [], rfl, .inr (.inr rfl)⟩
  | _ => exact ⟨' ', _, by simp [text, toString]; rfl, .inl rfl⟩

/-- A value is not taken for another token. -/
theorem append_ne_of_isOperand {t t' : Token} (ht : t.IsLegible) (h : t.isOperand = true)
    (h' : t'.isOperand = false) : t.text.toList ++ s ≠ t'.text.toList ++ s' := by
  obtain ⟨c, cs, htext, hc⟩ := exists_text_eq_cons_of_isOperand ht h
  obtain ⟨d, ds, htext', hd⟩ := exists_text_eq_cons_of_not_isOperand h'
  rw [htext, htext', List.cons_append, List.cons_append]
  intro heq
  rw [(List.cons.inj heq).1] at hc
  rcases hd with rfl | rfl | rfl <;> exact absurd hc (by decide)

/-- A blank in front of a name is not taken for another token. -/
theorem blank_append_ne {t : Token} (hs : blank.Stops s) (h : t.isOperand = false)
    (hne : t ≠ blank) : blank.text.toList ++ s ≠ t.text.toList ++ s' := by
  obtain ⟨c, hc, hword⟩ := hs
  obtain ⟨cs, rfl⟩ := List.head?_eq_some_iff.1 hc
  intro heq
  -- behind the blank there is a sign in every other token
  cases t with
  | ref r => cases h
  | const n => cases h
  | opening | closing => simp [text] at heq
  | blank => exact hne rfl
  | op o =>
    cases o <;> simp [text, BinaryOp.symbol, toString] at heq <;>
      exact absurd (heq.1 ▸ hword) (by decide)
  | constrains | assigns | equals =>
    simp [text] at heq
    exact absurd (heq.1 ▸ hword) (by decide)
  | makes t =>
    simp [text, toString] at heq
    exact absurd (heq.1 ▸ hword) (by decide)

/-- The tokens other than values and blanks are told by their texts. -/
theorem eq_of_append_of_sign {t t' : Token} (ht : t.isOperand = false) (ht' : t'.isOperand = false)
    (hne : t ≠ blank) (hne' : t' ≠ blank) (h : t.text.toList ++ s = t'.text.toList ++ s') :
    t = t' := by
  cases t with
  | ref r => cases ht
  | const n => cases ht
  | blank => exact absurd rfl hne
  | op o =>
    cases t' with
    | op o' => cases o <;> cases o' <;> simp [text, BinaryOp.symbol, toString] at h ⊢
    | ref r => cases ht'
    | const n => cases ht'
    | blank => exact absurd rfl hne'
    | _ => cases o <;> simp [text, BinaryOp.symbol, toString] at h
  | makes t =>
    cases t' with
    | makes t' =>
      have htext : t.text.toList ++ s = t'.text.toList ++ s' := by
        simpa [text, toString] using h
      exact congrArg makes (Template.eq_of_append htext)
    | op o => cases o <;> simp [text, BinaryOp.symbol, toString] at h
    | ref r => cases ht'
    | const n => cases ht'
    | blank => exact absurd rfl hne'
    | _ => simp [text, toString] at h
  | _ =>
    cases t' with
    | op o => cases o <;> simp [text, BinaryOp.symbol, toString] at h
    | ref r => cases ht'
    | const n => cases ht'
    | blank => exact absurd rfl hne'
    | _ => simp [text, toString] at h ⊢

/-- A token is read off the text behind it. -/
theorem eq_of_append {t t' : Token} (ht : t.IsLegible) (ht' : t'.IsLegible) (hs : t.Stops s)
    (hs' : t'.Stops s') (h : t.text.toList ++ s = t'.text.toList ++ s') : t = t' := by
  cases hoperand : t.isOperand with
  | true =>
    cases hoperand' : t'.isOperand with
    | false => exact absurd h (append_ne_of_isOperand ht hoperand hoperand')
    | true =>
      cases t with
      | ref r =>
        cases t' with
        | ref r' => exact congrArg ref (Ref.eq_of_append ht ht' hs hs' h)
        | const n =>
          rw [text, Ref.toList_text, List.append_assoc] at h
          exact absurd h.symm (repr_append_ne_identifier ht.name)
        | _ => cases hoperand'
      | const m =>
        cases t' with
        | ref r =>
          rw [text, text, Ref.toList_text, List.append_assoc] at h
          exact absurd h (repr_append_ne_identifier ht'.name)
        | const n => exact congrArg const (eq_of_repr_append hs.endsWord hs'.endsWord h).1
        | _ => cases hoperand'
      | _ => cases hoperand
  | false =>
    cases hoperand' : t'.isOperand with
    | true => exact absurd h.symm (append_ne_of_isOperand ht' hoperand' hoperand)
    | false =>
      by_cases hblank : t = blank
      · subst hblank
        by_contra hne
        exact blank_append_ne hs hoperand' (Ne.symm hne) h
      · by_cases hblank' : t' = blank
        · subst hblank'
          exact absurd h.symm (blank_append_ne hs' hoperand hblank)
        · exact eq_of_append_of_sign hoperand hoperand' hblank hblank' h

end Token

/-! ## Texts of several tokens -/

/-- The characters of tokens. -/
def charsOf (ts : List Token) : List Char := ts.flatMap fun t => t.text.toList

/-- No tokens have no characters. -/
@[simp] theorem charsOf_nil : charsOf [] = [] := rfl

/-- The characters of a token come first. -/
@[simp] theorem charsOf_cons (t : Token) (ts : List Token) :
    charsOf (t :: ts) = t.text.toList ++ charsOf ts := List.flatMap_cons

/-- Tokens and further tokens have their characters one behind the other. -/
@[simp] theorem charsOf_append (ts ts' : List Token) :
    charsOf (ts ++ ts') = charsOf ts ++ charsOf ts' :=
  List.flatMap_append

/-- Tokens may stand behind a token: no value follows a value, and a name follows a blank. -/
def Token.Precedes : Token → List Token → Prop
  | ref _, ts | const _, ts => ∀ t ∈ ts.head?, t.isOperand = false
  | blank, ts => ∃ r, ts.head? = some (ref r)
  | _, _ => True

/-- Tokens are legible, and each of them may stand where it stands. -/
def Legible : List Token → Prop
  | [] => True
  | t :: ts => t.IsLegible ∧ t.Precedes ts ∧ Legible ts

variable {ts ts' : List Token}

/-- A text of legible tokens may stand behind a token when the tokens may. -/
theorem Token.Precedes.stops {t : Token} (h : t.Precedes ts) (hts : Legible ts) :
    t.Stops (charsOf ts) := by
  have hoperand (h : ∀ t ∈ ts.head?, t.isOperand = false) : EndsRef (charsOf ts) := by
    cases ts with
    | nil => exact nofun
    | cons next ts =>
      obtain ⟨c, cs, htext, hc⟩ := exists_text_eq_cons_of_not_isOperand (h next rfl)
      rw [charsOf_cons, htext]
      rintro d hd
      cases hd
      rcases hc with rfl | rfl | rfl <;> decide
  cases t with
  | ref r => exact hoperand h
  | const n => exact hoperand h
  | blank =>
    obtain ⟨r, hr⟩ := h
    obtain ⟨ts, rfl⟩ := List.head?_eq_some_iff.1 hr
    obtain ⟨c, cs, htext, hc⟩ := exists_text_eq_cons_of_isOperand hts.1 rfl
    exact ⟨c, by rw [charsOf_cons, htext]; rfl, hc⟩
  | _ => trivial

/-- A token has a text. -/
theorem Token.text_ne_nil {t : Token} (h : t.IsLegible) : t.text.toList ≠ [] := by
  cases hoperand : t.isOperand with
  | true =>
    obtain ⟨c, cs, htext, -⟩ := exists_text_eq_cons_of_isOperand h hoperand
    simp [htext]
  | false =>
    obtain ⟨c, cs, htext, -⟩ := exists_text_eq_cons_of_not_isOperand hoperand
    simp [htext]

/-- A text falls into legible tokens in one way only. -/
theorem eq_of_charsOf_eq (h : Legible ts) (h' : Legible ts') (heq : charsOf ts = charsOf ts') :
    ts = ts' := by
  induction ts generalizing ts' with
  | nil =>
    cases ts' with
    | nil => rfl
    | cons t' ts' => exact absurd (List.append_eq_nil_iff.1 heq.symm).1 (Token.text_ne_nil h'.1)
  | cons t ts ih =>
    cases ts' with
    | nil => exact absurd (List.append_eq_nil_iff.1 heq).1 (Token.text_ne_nil h.1)
    | cons t' ts' =>
      obtain ⟨ht, hstops, hts⟩ := h
      obtain ⟨ht', hstops', hts'⟩ := h'
      rw [charsOf_cons, charsOf_cons] at heq
      obtain rfl := Token.eq_of_append ht ht' (hstops.stops hts) (hstops'.stops hts') heq
      rw [ih hts hts' (List.append_cancel_left heq)]

/-! ## Expressions -/

namespace Expr

/-- The tokens of an expression in a place that takes operators of at least the given precedence
without parentheses. -/
def tokensAt (least : Nat) : Expr → List Token
  | ref r => [.ref r]
  | const n => [.const n]
  | binary op left right =>
    let p := op.precedence
    let body := left.tokensAt p ++ .op op :: right.tokensAt (p + 1)
    if p < least then .opening :: body ++ [.closing] else body

/-- The text of an expression is that of its tokens. -/
theorem charsOf_tokensAt (e : Expr) (least : Nat) :
    charsOf (e.tokensAt least) = (e.textAt least).toList := by
  induction e generalizing least with
  | ref r => simp [tokensAt, textAt, Token.text]
  | const n => simp [tokensAt, textAt, Token.text]
  | binary op left right hleft hright =>
    unfold tokensAt textAt
    dsimp only
    split <;> simp [hleft, hright, Token.text, toString]

/-- The tokens of an expression are legible in front of a sign when its references are. -/
theorem legible_tokensAt {e : Expr} (h : ∀ r ∈ e.refs none, r.IsLegible) (least : Nat)
    (hts : Legible ts) (hhead : ∀ t ∈ ts.head?, t.isOperand = false) :
    Legible (e.tokensAt least ++ ts) := by
  induction e generalizing least ts with
  | ref r => exact ⟨h r (List.mem_singleton_self r), hhead, hts⟩
  | const n => exact ⟨trivial, hhead, hts⟩
  | binary op left right hleft hright =>
    rw [refs, List.forall_mem_append] at h
    have hbody {ts : List Token} (hts : Legible ts) (hhead : ∀ t ∈ ts.head?, t.isOperand = false) :
        Legible (left.tokensAt op.precedence ++
          .op op :: (right.tokensAt (op.precedence + 1) ++ ts)) :=
      hleft h.1 _ ⟨trivial, trivial, hright h.2 _ hts hhead⟩ fun t ht => Option.some.inj ht ▸ rfl
    unfold tokensAt
    dsimp only
    split
    · have hclosing : Legible (.closing :: ts) := ⟨trivial, trivial, hts⟩
      have hrest := hbody hclosing fun t ht => Option.some.inj ht ▸ rfl
      have hwhole : Legible (.opening :: _) := ⟨trivial, trivial, hrest⟩
      simpa using hwhole
    · simpa using hbody hts hhead

/-- Tokens do not end with an operator that binds at least as tightly as asked for. -/
def Open (least : Nat) (ts : List Token) : Prop :=
  ∀ op, ts.getLast? = some (.op op) → op.precedence < least

/-- Tokens do not end with an operator that binds more tightly when they end with none that binds as
tightly. -/
theorem Open.mono {least least' : Nat} (h : Open least ts) (hle : least ≤ least') :
    Open least' ts := fun op hop => (h op hop).trans_le hle

/-- What ends with an operator may go on with an operand that binds more tightly. -/
theorem open_append_op (ts : List Token) (op : BinaryOp) :
    Open (op.precedence + 1) (ts ++ [.op op]) := by
  intro op' hop
  rw [List.getLast?_concat, Option.some.injEq, Token.op.injEq] at hop
  exact hop ▸ Nat.lt_succ_self _

/-- What ends with a parenthesis may go on with anything. -/
theorem open_append_opening (ts : List Token) (least : Nat) : Open least (ts ++ [.opening]) := by
  intro op hop
  rw [List.getLast?_concat] at hop
  cases hop

/-- What ends with an operator may not go on with an operand of an operator that binds as tightly or
less. -/
theorem not_open_append_op {least : Nat} {op : BinaryOp} (h : least ≤ op.precedence) :
    ¬ Open least (ts ++ [.op op]) := fun hopen =>
  absurd (hopen op List.getLast?_concat) (Nat.not_lt.2 h)

variable {op : BinaryOp} {left right : Expr} {least : Nat}

/-- The tokens of an operation that is not put into parentheses. -/
theorem append_tokensAt_of_le (h : least ≤ op.precedence) :
    ts ++ (binary op left right).tokensAt least =
      ts ++ left.tokensAt op.precedence ++ [.op op] ++ right.tokensAt (op.precedence + 1) := by
  rw [tokensAt]
  simp [Nat.not_lt.2 h]

/-- The tokens of an operation that is put into parentheses. -/
theorem append_tokensAt_of_lt (h : op.precedence < least) :
    ts ++ (binary op left right).tokensAt least =
      ts ++ [.opening] ++ (binary op left right).tokensAt 0 ++ [.closing] := by
  simp [tokensAt, h]

/-- Behind tokens with which they may go on, the tokens of an expression end with a value only when
they are this value. -/
theorem tokensAt_eq_of_concat {e : Expr} {t : Token} (ht : t.isOperand = true)
    (hopen : Open least ts) (h : ts' ++ e.tokensAt least = ts ++ [t]) : e.tokensAt least = [t] := by
  induction e generalizing least ts' with
  | ref r => exact (List.append_inj' h rfl).2
  | const n => exact (List.append_inj' h rfl).2
  | binary op left right _ ih =>
    rcases Nat.lt_or_ge op.precedence least with hlt | hle
    · rw [append_tokensAt_of_lt hlt] at h
      cases (List.append_inj' h rfl).2
      cases ht
    · -- the value is the right operand, and the operator in front of it binds too tightly
      rw [append_tokensAt_of_le hle] at h
      rw [ih (hopen.mono (Nat.le_succ_of_le hle)) h] at h
      exact absurd ((List.append_inj' h rfl).1 ▸ hopen) (not_open_append_op hle)

/-- An operation does not have the tokens of a value. -/
theorem tokensAt_binary_ne {t : Token} (ht : t.isOperand = true) :
    (binary op left right).tokensAt least ≠ [t] := by
  intro h
  have hmem : .op op ∈ (binary op left right).tokensAt least := by
    rw [tokensAt]
    split <;> simp
  rw [h, List.mem_singleton] at hmem
  subst hmem
  cases ht

/-- Two places take the same tokens when an operation is put into parentheses in both or in none. -/
theorem tokensAt_binary_congr (least' : Nat)
    (h : op.precedence < least ↔ op.precedence < least') :
    (binary op left right).tokensAt least = (binary op left right).tokensAt least' := by
  simp [tokensAt, h]

/-- Behind tokens with which they may go on, the tokens of two expressions are the same only when
the expressions are. -/
def Told (e e' : Expr) : Prop :=
  ∀ least ts ts', Open least ts → Open least ts' →
    ts ++ e.tokensAt least = ts' ++ e'.tokensAt least → ts = ts' ∧ e = e'

/-- Two expressions are told in either order. -/
theorem Told.symm {e e' : Expr} (h : Told e e') : Told e' e := fun least ts ts' hts hts' heq =>
  let ⟨hfront, hexpr⟩ := h least ts' ts hts' hts heq.symm
  ⟨hfront.symm, hexpr.symm⟩

/-- A value is told from any expression. -/
theorem told_of_isOperand {e e' : Expr} {t : Token} (ht : t.isOperand = true)
    (he : ∀ least, e.tokensAt least = [t])
    (hvalue : ∀ least, e'.tokensAt least = [t] → e = e') : Told e e' := by
  intro least ts ts' hopen _ h
  rw [he] at h
  have htokens := tokensAt_eq_of_concat ht hopen h.symm
  rw [htokens] at h
  exact ⟨(List.append_inj' h rfl).1, hvalue least htokens⟩

variable {op' : BinaryOp} {left' right' : Expr}

/-- When an operation stands without parentheses, no other expression that binds more tightly or is
put into parentheses has its tokens: it would be the right operand. -/
theorem append_tokensAt_ne (hright : Told right (binary op' left' right'))
    (hle : least ≤ op.precedence) (hother : op'.precedence < least ∨ op.precedence < op'.precedence)
    (hts' : Open least ts') :
    ts ++ (binary op left right).tokensAt least ≠
      ts' ++ (binary op' left' right').tokensAt least := by
  intro h
  rw [append_tokensAt_of_le hle,
    tokensAt_binary_congr (op.precedence + 1) (by omega)] at h
  obtain ⟨rfl, -⟩ := hright _ _ _ (open_append_op _ op) (hts'.mono (Nat.le_succ_of_le hle)) h
  exact not_open_append_op hle hts'

/-- Two operations are told when their operands are, and one of them stands without parentheses. -/
theorem eq_of_append_tokensAt (hleft : Told left left') (hright : Told right right')
    (hwhole : Told right (binary op' left' right')) (hwhole' : Told right' (binary op left right))
    (hts : Open least ts) (hts' : Open least ts')
    (hle : least ≤ op.precedence ∨ least ≤ op'.precedence)
    (h : ts ++ (binary op left right).tokensAt least =
      ts' ++ (binary op' left' right').tokensAt least) :
    ts = ts' ∧ binary op left right = binary op' left' right' := by
  by_cases hother : least ≤ op.precedence ∧
      (op'.precedence < least ∨ op.precedence < op'.precedence)
  · exact absurd h (append_tokensAt_ne hwhole hother.1 hother.2 hts')
  by_cases hother' : least ≤ op'.precedence ∧
      (op.precedence < least ∨ op'.precedence < op.precedence)
  · exact absurd h.symm (append_tokensAt_ne hwhole' hother'.1 hother'.2 hts)
  -- both stand without parentheses and bind equally: what is behind the last operator is the right
  -- operand of both
  have hlevel : op.precedence = op'.precedence := by omega
  have hopen : least ≤ op.precedence := by omega
  rw [append_tokensAt_of_le hopen, append_tokensAt_of_le (hlevel ▸ hopen), ← hlevel] at h
  obtain ⟨hfront, rfl⟩ :=
    hright _ _ _ (open_append_op _ op) (hlevel ▸ open_append_op _ op') h
  obtain ⟨hoperand, hop⟩ := List.append_inj' hfront rfl
  cases hop
  obtain ⟨rfl, rfl⟩ := hleft _ _ _ (hts.mono hopen) (hts'.mono hopen) hoperand
  exact ⟨rfl, rfl⟩

/-- Any two expressions are told. -/
theorem told (e e' : Expr) : Told e e' := by
  -- the right operand of one operation is compared with the whole of the other
  induction e generalizing e' with
  | ref r =>
    refine told_of_isOperand (t := .ref r) rfl (fun _ => rfl) fun least h => ?_
    cases e' with
    | ref r' => cases h; rfl
    | const n => cases h
    | binary op' left' right' => exact absurd h (tokensAt_binary_ne rfl)
  | const n =>
    refine told_of_isOperand (t := .const n) rfl (fun _ => rfl) fun least h => ?_
    cases e' with
    | ref r' => cases h
    | const n' => cases h; rfl
    | binary op' left' right' => exact absurd h (tokensAt_binary_ne rfl)
  | binary op left right hleft hright =>
    induction e' with
    | ref r =>
      exact (told_of_isOperand (t := .ref r) rfl (fun _ => rfl) fun least h =>
        absurd h (tokensAt_binary_ne rfl)).symm
    | const n =>
      exact (told_of_isOperand (t := .const n) rfl (fun _ => rfl) fun least h =>
        absurd h (tokensAt_binary_ne rfl)).symm
    | binary op' left' right' _ hright' =>
      intro least ts ts' hts hts' h
      have hwhole := hright (binary op' left' right')
      by_cases hle : least ≤ op.precedence ∨ least ≤ op'.precedence
      · exact eq_of_append_tokensAt (hleft left') (hright right') hwhole hright'.symm hts hts' hle h
      · -- both are put into parentheses, and are compared inside of them
        obtain ⟨hlt, hlt'⟩ := not_or.1 hle
        rw [append_tokensAt_of_lt (Nat.not_le.1 hlt),
          append_tokensAt_of_lt (Nat.not_le.1 hlt')] at h
        obtain ⟨hinside, -⟩ := List.append_inj' h rfl
        obtain ⟨hfront, heq⟩ := eq_of_append_tokensAt (hleft left') (hright right') hwhole
          hright'.symm (open_append_opening ts 0) (open_append_opening ts' 0)
          (.inl (Nat.zero_le _)) hinside
        exact ⟨(List.append_inj' hfront rfl).1, heq⟩

/-- The tokens of an expression are those of one expression only. -/
theorem eq_of_tokensAt_eq {e e' : Expr} (h : e.tokensAt 0 = e'.tokensAt 0) : e = e' :=
  (told e e' 0 [] [] nofun nofun h).2

end Expr

end CircuitGraph.Circom
