import CircuitGraph.Json.Value

/-!
# Writing JSON

`Value.pretty` writes a value over several lines: two spaces of indentation for each level, a colon
and a space behind each name, and no line break at the end. Empty arrays and objects stay on their
line. Inside strings a quote, a backslash and the characters below U+0020 are escaped, by a letter
where there is one and by four lower-case hexadecimal digits otherwise; every other character stands
for itself.
-/

namespace CircuitGraph.Json

/-- The hexadecimal digit of a number below 16, in lower case. -/
def hexDigit (n : Nat) : Char := Nat.digitChar n

/-- A character inside a string literal. -/
def escapeChar (c : Char) : List Char :=
  if c = '"' then ['\\', '"']
  else if c = '\\' then ['\\', '\\']
  else if c = '\x08' then ['\\', 'b']
  else if c = '\x0c' then ['\\', 'f']
  else if c = '\n' then ['\\', 'n']
  else if c = '\r' then ['\\', 'r']
  else if c = '\t' then ['\\', 't']
  else if c < ' ' then ['\\', 'u', '0', '0', hexDigit (c.toNat / 16), hexDigit (c.toNat % 16)]
  else [c]

/-- A text between quotes. -/
def quote (s : String) : String :=
  String.ofList ('"' :: s.toList.flatMap escapeChar ++ ['"'])

/-- A string literal. One without a text is written as a lone surrogate. -/
def Literal.print : Literal → String
  | some s => quote s
  | none => "\"\\ud800\""

/-- A digit from 0 to 9. -/
def printDigits (digits : List Nat) : String := String.ofList (digits.map Nat.digitChar)

/-- A number as it was written, up to the spelling of its exponent. -/
def Numeral.print (n : Numeral) : String :=
  let sign := if n.negative then "-" else ""
  let fraction := if n.fraction.isEmpty then "" else "." ++ printDigits n.fraction
  let exponent := match n.exponent with
    | some e => "e" ++ toString e
    | none => ""
  sign ++ printDigits n.whole ++ fraction ++ exponent

/-- The start of a line at the given level of nesting. -/
def newLine (level : Nat) : String := String.ofList ('\n' :: List.replicate (2 * level) ' ')

namespace Value

mutual

/-- A value whose brackets stand at the given level of nesting. -/
def prettyAt (level : Nat) : Value → String
  | .null => "null"
  | .bool true => "true"
  | .bool false => "false"
  | .number n => n.print
  | .string content => Literal.print content
  | .array [] => "[]"
  | .array (v :: vs) =>
    "[" ++ newLine (level + 1) ++ v.prettyAt (level + 1) ++ prettyElements (level + 1) vs
      ++ newLine level ++ "]"
  | .object [] => "\x7b\x7d"
  | .object ((name, v) :: ms) =>
    "\x7b" ++ newLine (level + 1) ++ Literal.print name ++ ": " ++ v.prettyAt (level + 1)
      ++ prettyMembers (level + 1) ms ++ newLine level ++ "\x7d"
termination_by structural v => v

/-- The elements after the first, each behind a comma on a line of its own. -/
def prettyElements (level : Nat) : List Value → String
  | [] => ""
  | v :: vs => "," ++ newLine level ++ v.prettyAt level ++ prettyElements level vs
termination_by structural vs => vs

/-- The members after the first, each behind a comma on a line of its own. -/
def prettyMembers (level : Nat) : List (Literal × Value) → String
  | [] => ""
  | (name, v) :: ms =>
    "," ++ newLine level ++ Literal.print name ++ ": " ++ v.prettyAt level ++ prettyMembers level ms
termination_by structural ms => ms

end

/-- A value over several lines. -/
def pretty (v : Value) : String := v.prettyAt 0

end Value

end CircuitGraph.Json
