import CircuitGraph.Circom.Expr

/-!
# Names that are taken

Every identifier of a source unit is claimed from one table. A name is claimed together with the
names derived from it by suffixes; when one of them is taken, a number from two on is appended to
the name until all of them are free. Each name that is taken can spoil at most one candidate for the
name and one for each suffix, which bounds the search.

The number is kept in a counter of 32 bits, which goes on with zero and one when it is full.
-/

namespace CircuitGraph.Circom

/-- The identifiers that are never given out: the words of the language, the loop counter and the
name of the main component. -/
def reservedNames : List String :=
  ["signal", "input", "output", "public", "template", "component", "var", "function", "return",
   "if", "else", "for", "while", "do", "log", "assert", "include", "pragma", "circom",
   "custom_templates", "parallel", "bus", "main", counterName]

/-- The names that are taken. -/
structure NameTable where
  /-- The names, in no particular order. -/
  taken : List String
deriving DecidableEq, Repr

/-- A name and the names derived from it. -/
def family (suffixes : List String) (name : String) : List String :=
  name :: suffixes.map fun suffix => name ++ suffix

/-- What the counter shows at a try. It has 32 bits and starts with two, so zero and one come last.
When it has gone round, the candidates would repeat themselves for ever; numbers beyond its range
stand in for that, so that the search comes to an end on every table. -/
def counterAt (k : Nat) : Nat := if k < UInt32.size then (k + 2) % UInt32.size else k

/-- The candidate with the given number: the base itself, then the base with 2, 3 and so on. -/
def candidate (base : String) : Nat → String
  | 0 => base
  | k + 1 => s!"{base}_{counterAt k}"

namespace NameTable

/-- The table before anything has been claimed: the reserved names and the template's are taken. -/
def initial (template : String) : NameTable := ⟨template :: reservedNames⟩

/-- Whether a name and the names derived from it are free. -/
def isFree (t : NameTable) (suffixes : List String) (name : String) : Bool :=
  (family suffixes name).all fun n => !t.taken.contains n

/-- The number of the first free candidate from `k` on, or `k + fuel` when `fuel` candidates are not
free. -/
def firstFree (t : NameTable) (suffixes : List String) (base : String) : (fuel k : Nat) → Nat
  | 0, k => k
  | fuel + 1, k =>
    if t.isFree suffixes (candidate base k) then k else firstFree t suffixes base fuel (k + 1)

/-- The first candidate that is free together with the names derived from it. -/
def fresh (t : NameTable) (base : String) (suffixes : List String) : String :=
  candidate base (t.firstFree suffixes base ((suffixes.length + 1) * t.taken.length) 0)

/-- Claims a name and the names derived from it. -/
def allocate (t : NameTable) (base : String) (suffixes : List String) : String × NameTable :=
  let name := t.fresh base suffixes
  (name, ⟨family suffixes name ++ t.taken⟩)

end NameTable

end CircuitGraph.Circom
