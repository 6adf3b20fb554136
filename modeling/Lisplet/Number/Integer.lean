/-!
# Integer literals

A sign, then hexadecimal digits after `0x`, octal digits after `0`, or decimal
digits. The whole text must be consumed, and a value that does not fit in 64
bits becomes the nearest one that does.
-/

namespace Lisplet.Number

def clamp (z : Int) : Int64 :=
  if z < Int64.minValue.toInt then Int64.minValue
  else if Int64.maxValue.toInt < z then Int64.maxValue
  else Int64.ofInt z

/-- The value of a digit character, letters counting on from ten. -/
def digitValue (c : Char) : Option Nat :=
  if '0' ≤ c ∧ c ≤ '9' then some (c.toNat - '0'.toNat)
  else if 'a' ≤ c ∧ c ≤ 'f' then some (c.toNat - 'a'.toNat + 10)
  else if 'A' ≤ c ∧ c ≤ 'F' then some (c.toNat - 'A'.toNat + 10)
  else none

def digit (base : Nat) (c : Char) : Option Nat :=
  (digitValue c).filter (· < base)

/-- Continues the numeral whose digits so far have the value `acc`; the value
stops growing at `cap`. -/
def numeralFrom (base cap acc : Nat) : List Char → Option Nat
  | [] => some acc
  | c :: cs => (digit base c).bind fun d => numeralFrom base cap (min cap (acc * base + d)) cs

/-- No 64-bit integer reaches this value, with or without a sign. -/
def wordCap : Nat := Nat.pow 2 64

def numeral (base : Nat) (cs : List Char) : Option Nat :=
  if cs.isEmpty then none else numeralFrom base wordCap 0 cs

def splitSign : List Char → Bool × List Char
  | '-' :: cs => (true, cs)
  | '+' :: cs => (false, cs)
  | cs => (false, cs)

def magnitude : List Char → Option Nat
  | '0' :: 'x' :: cs => numeral 16 cs
  | '0' :: 'X' :: cs => numeral 16 cs
  | '0' :: c :: cs => numeral 8 (c :: cs)
  | cs => numeral 10 cs

def readInt (cs : List Char) : Option Int64 :=
  let (negative, rest) := splitSign cs
  (magnitude rest).map fun n => clamp (if negative then -(n : Int) else n)

end Lisplet.Number
