/-!
# Circom expressions

References to signals and components, and the arithmetic over them. `Expr.text` puts an operand into
parentheses only where the precedence of the operators asks for it.
-/

namespace CircuitGraph.Circom

/-- A place in an array. -/
inductive Subscript
  /-- A fixed place. -/
  | fixed (n : Nat)
  /-- The loop counter plus an offset. -/
  | counter (offset : Nat)
deriving DecidableEq, Repr

/-- The name of the loop counter. -/
def counterName : String := "i"

/-- The text of a subscript. -/
def Subscript.text : Subscript → String
  | fixed n => toString n
  | counter 0 => counterName
  | counter offset => s!"{counterName} + {offset}"

/-- One step from a signal or a component to a part of it. -/
inductive Accessor
  /-- An element of an array. -/
  | element (s : Subscript)
  /-- A signal of a component. -/
  | field (name : String)
deriving DecidableEq, Repr

/-- The text of a step. -/
def Accessor.text : Accessor → String
  | element s => s!"[{s.text}]"
  | field name => s!".{name}"

/-- A signal, a component or a part of one. -/
structure Ref where
  /-- The declared name. -/
  name : String
  /-- The steps to the part. -/
  path : List Accessor := []
deriving DecidableEq, Repr

namespace Ref

/-- An element at a fixed place. -/
def atPlace (r : Ref) (n : Nat) : Ref := { r with path := r.path ++ [.element (.fixed n)] }

/-- The element at the loop counter plus an offset. -/
def atCounter (r : Ref) (offset : Nat) : Ref :=
  { r with path := r.path ++ [.element (.counter offset)] }

/-- A signal of a component. -/
def field (r : Ref) (name : String) : Ref := { r with path := r.path ++ [.field name] }

/-- The text of a reference. -/
def text (r : Ref) : String := r.name ++ String.join (r.path.map Accessor.text)

end Ref

/-- An operator between two expressions. -/
inductive BinaryOp
  /-- The sum. -/
  | add
  /-- The difference. -/
  | sub
  /-- The product. -/
  | mul
  /-- The quotient in the field. -/
  | div
  /-- The quotient of integers, rounded down. -/
  | quotient
  /-- The remainder of integers. -/
  | remainder
deriving DecidableEq, Repr

namespace BinaryOp

/-- The text of an operator. -/
def symbol : BinaryOp → String
  | add => "+"
  | sub => "-"
  | mul => "*"
  | div => "/"
  | quotient => "\\"
  | remainder => "%"

/-- How tightly an operator binds. -/
def precedence : BinaryOp → Nat
  | add | sub => 1
  | mul | div | quotient | remainder => 2

end BinaryOp

/-- An arithmetic expression. -/
inductive Expr
  /-- The value of a signal. -/
  | ref (r : Ref)
  /-- A constant. -/
  | const (n : Nat)
  /-- An operator applied to two expressions. -/
  | binary (op : BinaryOp) (left right : Expr)
deriving DecidableEq, Repr

namespace Expr

/-- The text of an expression in a place that takes operators of at least the given precedence
without parentheses. -/
def textAt (least : Nat) : Expr → String
  | ref r => r.text
  | const n => toString n
  | binary op left right =>
    let p := op.precedence
    let body := s!"{left.textAt p} {op.symbol} {right.textAt (p + 1)}"
    if p < least then s!"({body})" else body

/-- The text of an expression. -/
def text (e : Expr) : String := e.textAt 0

instance : Coe Ref Expr := ⟨ref⟩

end Expr

end CircuitGraph.Circom
