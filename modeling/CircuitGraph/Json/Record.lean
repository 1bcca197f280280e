import CircuitGraph.Json.Value

/-!
# Records

A record with named fields is written as an object, in any order, or as an array of its fields in
the order of their declaration. In an object a field occurs at most once, and members with other
names are skipped, repeated or not. In an array the last fields may be left out, and there are no
elements beyond the declared fields.
-/

namespace CircuitGraph.Json

/-- The fields that are present, by name. -/
abbrev Record := List (String × Value)

/-- The values of the members with the given name. -/
def membersNamed (name : String) (members : List (Literal × Value)) : List Value :=
  members.filterMap fun (key, value) => if key = some name then some value else none

/-- The declared fields of an object; a repeated one is refused. -/
def fieldsOfMembers? (members : List (Literal × Value)) : List String → Option Record
  | [] => some []
  | name :: names =>
    match membersNamed name members with
    | [] => fieldsOfMembers? members names
    | [value] => (fieldsOfMembers? members names).map ((name, value) :: ·)
    | _ => none

/-- The record with the given field names, in order of declaration, that a value writes. -/
def Value.record? (names : List String) : Value → Option Record
  | .object members =>
    if members.all fun (key, _) => key.isSome then fieldsOfMembers? members names else none
  | .array elements =>
    if elements.length ≤ names.length then some (names.zip elements) else none
  | _ => none

namespace Record

/-- A field that has to be present. -/
def required? {α : Type} (r : Record) (name : String) (decode : Value → Option α) : Option α :=
  r.lookup name >>= decode

/-- A field with a value to be taken when it is absent. -/
def withDefault? {α : Type} (r : Record) (name : String) (default : α) (decode : Value → Option α) :
    Option α :=
  match r.lookup name with
  | some value => decode value
  | none => some default

/-- A field that may be absent or null. -/
def optional? {α : Type} (r : Record) (name : String) (decode : Value → Option α) :
    Option (Option α) :=
  match r.lookup name with
  | none => some none
  | some .null => some none
  | some value => (decode value).map some

end Record

end CircuitGraph.Json
