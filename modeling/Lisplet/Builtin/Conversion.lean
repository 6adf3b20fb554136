import Lisplet.Datum

/-!
# Conversion

Truth, and the conversions between kinds of values. A text converts to a number
if it is a literal of one.
-/

namespace Lisplet

def Heap.truthy (h : Heap) : Option Value → Bool
  | none => false
  | some (.bool b) => b
  | some (.int n) => n != 0
  | some (.float x) => x != 0.0
  | some (.str _ s) => !s.isEmpty
  | some (.tuple r) | some (.list r) => !(h.itemsAt r).isEmpty
  | some (.table r) => !(h.tableAt r).isEmpty

namespace Builtin

def toInt : Option Value → Option Value
  | some (.bool b) => some (.int (if b then 1 else 0))
  | some (.int n) => some (.int n)
  | some (.float x) => some (.int (Number.truncate x))
  | some (.str _ s) => (Number.readInt s.toList).map .int
  | _ => none

def toFloat : Option Value → Option Value
  | some (.bool b) => some (.float (if b then 1.0 else 0.0))
  | some (.int n) => some (.float (Number.widen n))
  | some (.float x) => some (.float x)
  | some (.str _ s) => (Number.readFloat s.toList).map .float
  | _ => none

/-- `(str v)`: a string is its own text and is shared; anything else is written
out, unless it contains itself. -/
def toStr (h : Heap) : Option Value → Option Value × Heap
  | some (.str r s) => (some (.str r s), h.retainRef r)
  | v =>
    match h.render v with
    | some text =>
      let (s, h) := h.newStr text
      (some s, h)
    | none => (none, h)

def typeName : Option Value → String
  | some v => v.typeName
  | none => "null"

def typeOf (h : Heap) (v : Option Value) : Value × Heap :=
  h.newStr (typeName v)

end Builtin

end Lisplet
