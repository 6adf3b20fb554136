import Lisplet.Number.Integer

/-!
# Floats as whole numbers of quanta

Every finite float is a whole number of quanta of size `2 ^ -1074`, with a sign.
On quanta the remainder of a division and the integer part are exact.
-/

namespace Lisplet.Number

def hasSign (x : Float) : Bool :=
  Nat.pow 2 63 ≤ x.toBits.toNat

/-- The magnitude of a finite float in quanta. -/
def quanta (x : Float) : Nat :=
  let bits := x.toBits.toNat % Nat.pow 2 63
  let e := bits / Nat.pow 2 52
  let f := bits % Nat.pow 2 52
  if e = 0 then f else (Nat.pow 2 52 + f) * Nat.pow 2 (e - 1)

/-- The number of low bits of `n` that a float of `n` quanta has no room for. -/
def excess (n : Nat) : Nat := n.log2 - 52

/-- The float of `n` quanta, for an `n` whose excess bits are zero. -/
def ofQuanta (negative : Bool) (n : Nat) : Float :=
  let s := excess n
  Float.ofBits
    (UInt64.ofNat ((if negative then Nat.pow 2 63 else 0) + s * Nat.pow 2 52 + n / Nat.pow 2 s))

/-- What is left of `x` after taking away `y` as often as it fits, with the sign
of `x`. -/
def remainder (x y : Float) : Float :=
  if !x.isFinite || y.isNaN || quanta y = 0 then 0.0 / 0.0
  else if y.isInf then x
  else ofQuanta (hasSign x) (quanta x % quanta y)

def truncate (x : Float) : Int64 :=
  if x.isNaN then 0
  else
    let n : Nat := quanta x / Nat.pow 2 1074
    clamp (if hasSign x then -(n : Int) else n)

def widen (n : Int64) : Float :=
  if n < 0 then -(0 - n.toUInt64).toFloat else n.toUInt64.toFloat

/-! ## Floored division -/

def floorMod (a b : Int64) : Int64 :=
  let r := a % b
  if r ≠ 0 ∧ (decide (r < 0) ≠ decide (b < 0)) then r + b else r

def floorModFloat (x y : Float) : Float :=
  let r := remainder x y
  if r != 0.0 && (decide (r < 0.0) != decide (y < 0.0)) then r + y else r

end Lisplet.Number
