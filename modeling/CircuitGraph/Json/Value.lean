import CircuitGraph.Json.Numeral

/-!
# JSON values

A `Value` is the syntax of a JSON text: numbers are kept as numerals, and the members of an object
keep their order and their repetitions. What a repeated or an unknown member means is decided where
the value is used.

A string literal may hold an escape for half of a surrogate pair. Such a literal is well formed but
denotes no text, so the content of a literal is optional.
-/

namespace CircuitGraph.Json

/-- The content of a string literal: a text, or nothing when an escape stands for an unpaired
surrogate. -/
abbrev Literal := Option String

/-- The syntax of a JSON text. -/
inductive Value
  /-- The word `null`. -/
  | null
  /-- The words `true` and `false`. -/
  | bool (value : Bool)
  /-- A number. -/
  | number (numeral : Numeral)
  /-- A string. -/
  | string (content : Literal)
  /-- The elements in order. -/
  | array (elements : List Value)
  /-- The members in order, repeated names included. -/
  | object (members : List (Literal × Value))

namespace Value

/-- A string value. -/
def ofString (s : String) : Value := .string (some s)

/-- A number value. -/
def ofNat (n : Nat) : Value := .number (Numeral.ofNat n)

/-- An object from its members in order. -/
def ofMembers (members : List (String × Value)) : Value :=
  .object (members.map fun (name, value) => (some name, value))

/-- A member that is left out when the text is absent. -/
def optionalMember (name : String) (text : Option String) : List (String × Value) :=
  match text with
  | some s => [(name, ofString s)]
  | none => []

mutual

/-- Whether a value can be taken over in full: it has at most `depth` levels of arrays and objects,
every string and every name denotes a text, and every number denotes one. -/
def isReadable (depth : Nat) : Value → Bool
  | .null => true
  | .bool _ => true
  | .number n => n.text?.isSome
  | .string content => content.isSome
  | .array elements =>
    match depth with
    | 0 => false
    | depth + 1 => areReadable depth elements
  | .object members =>
    match depth with
    | 0 => false
    | depth + 1 => membersAreReadable depth members
termination_by structural v => v

/-- Whether every element can be taken over in full. -/
def areReadable (depth : Nat) : List Value → Bool
  | [] => true
  | v :: vs => v.isReadable depth && areReadable depth vs
termination_by structural vs => vs

/-- Whether every member can be taken over in full. -/
def membersAreReadable (depth : Nat) : List (Literal × Value) → Bool
  | [] => true
  | (name, v) :: ms => name.isSome && v.isReadable depth && membersAreReadable depth ms
termination_by structural ms => ms

end

/-- The text of a string value. -/
def string? : Value → Option String
  | .string content => content
  | _ => none

/-- The elements of an array. -/
def array? : Value → Option (List Value)
  | .array elements => some elements
  | _ => none

/-- The unsigned integer of 64 bits of a number value. -/
def word? : Value → Option Nat
  | .number n => n.word?
  | _ => none

/-- The elements of an array, each decoded. -/
def list? {α : Type} (decode : Value → Option α) (v : Value) : Option (List α) :=
  v.array? >>= List.mapM decode

end Value

end CircuitGraph.Json
