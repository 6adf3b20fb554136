import Lisplet.Number.Quanta
import Lisplet.Value

/-!
# Comparison

Values of one scalar kind can be equal. Numbers, with booleans among them, are
ordered by size, and strings by the code points of their characters.
-/

namespace Lisplet.Builtin

/-- Equality of two booleans, integers, floats or strings. Nothing else is equal
to anything. -/
def equals : Option Value → Option Value → Bool
  | some (.bool a), some (.bool b) => a == b
  | some (.int a), some (.int b) => a == b
  | some (.float x), some (.float y) => x == y
  | some (.str _ s), some (.str _ t) => s == t
  | _, _ => false

inductive Numeric
  | int (value : Int64)
  | float (value : Float)

/-- Booleans count as zero and one. -/
def numeric? : Value → Option Numeric
  | .bool b => some (.int (if b then 1 else 0))
  | .int n => some (.int n)
  | .float x => some (.float x)
  | _ => none

def Numeric.toFloat : Numeric → Float
  | .int n => Number.widen n
  | .float x => x

def trichotomy (lt eq gt : Bool) : Option Ordering :=
  if lt then some .lt else if eq then some .eq else if gt then some .gt else none

/-- Two integers compare exactly; with a float in play both compare as floats. -/
def Numeric.order : Numeric → Numeric → Option Ordering
  | .int a, .int b => trichotomy (a < b) (a == b) (b < a)
  | a, b => trichotomy (a.toFloat < b.toFloat) (a.toFloat == b.toFloat) (b.toFloat < a.toFloat)

def order? : Option Value → Option Value → Option (Option Ordering)
  | some (.str _ s), some (.str _ t) => some (trichotomy (s < t) (s == t) (t < s))
  | some a, some b =>
    match numeric? a, numeric? b with
    | some x, some y => some (x.order y)
    | _, _ => none
  | _, _ => none

def less (l r : Option Value) : Option Value :=
  (order? l r).map fun o => .bool (o == some .lt)

def greater (l r : Option Value) : Option Value :=
  (order? l r).map fun o => .bool (o == some .gt)

def negation : Option Value → Option Value
  | some (.bool b) => some (.bool !b)
  | _ => none

end Lisplet.Builtin
