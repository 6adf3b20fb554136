import Lisplet.Heap
import Lisplet.Number.Quanta

/-!
# Arithmetic

Two integers give an integer, wrapped to 64 bits; an integer and a float, or two
floats, give a float. Any other operands give no value, except that `+` joins
two strings.
-/

namespace Lisplet.Builtin

inductive Operands
  | ints (a b : Int64)
  | floats (x y : Float)

/-- Two numeric operands, integers widened where they meet a float. -/
def operands? : Option Value → Option Value → Option Operands
  | some (.int a), some (.int b) => some (.ints a b)
  | some (.int a), some (.float y) => some (.floats (Number.widen a) y)
  | some (.float x), some (.int b) => some (.floats x (Number.widen b))
  | some (.float x), some (.float y) => some (.floats x y)
  | _, _ => none

def sum (l r : Option Value) : Option Value :=
  (operands? l r).map fun
    | .ints a b => .int (a + b)
    | .floats x y => .float (x + y)

def add (h : Heap) (l r : Option Value) : Option Value × Heap :=
  match l, r with
  | some (.str _ s), some (.str _ t) =>
    let (v, h) := h.newStr (s ++ t)
    (some v, h)
  | l, r => (sum l r, h)

def sub (l r : Option Value) : Option Value :=
  (operands? l r).map fun
    | .ints a b => .int (a - b)
    | .floats x y => .float (x - y)

/-- `(- v)`: a float is taken from zero. -/
def neg : Option Value → Option Value
  | some (.int n) => some (.int (-n))
  | some (.float x) => some (.float (0.0 - x))
  | _ => none

def mul (l r : Option Value) : Option Value :=
  (operands? l r).map fun
    | .ints a b => .int (a * b)
    | .floats x y => .float (x * y)

def div (l r : Option Value) : Option Value :=
  match operands? l r with
  | some (.ints a b) => if b = 0 then none else some (.int (a / b))
  | some (.floats x y) => some (.float (x / y))
  | none => none

/-- `(% l r)`: the remainder takes the sign of the divisor. -/
def rem (l r : Option Value) : Option Value :=
  match operands? l r with
  | some (.ints a b) => if b = 0 then none else some (.int (Number.floorMod a b))
  | some (.floats x y) => some (.float (Number.floorModFloat x y))
  | none => none

end Lisplet.Builtin
