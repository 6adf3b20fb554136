import Lisplet.Number.Quanta

/-!
# Floats in decimal

Reading: decimal digits with an optional point and exponent, rounded to the
nearest float, or a spelled infinity or NaN. Writing: the decimal with the
fewest digits that reads back, laid out by a `Style`.
-/

namespace Lisplet.Number

/-! ## Reading -/

def splitDigits (cs : List Char) : List Char × List Char :=
  (cs.takeWhile Char.isDigit, cs.dropWhile Char.isDigit)

def digitsValue (cs : List Char) : Nat :=
  cs.foldl (fun n c => n * 10 + (c.toNat - '0'.toNat)) 0

structure Decimal where
  digits : Nat
  exponent : Int
deriving DecidableEq, Repr

/-- More digits than any float, or any midpoint of two neighbouring floats, has. -/
def significance : Nat := 800

/-- A decimal that rounds like the value of a run of decimal digits. Of the
digits behind the first `significance` ones it only matters whether all are zero. -/
def condense (cs : List Char) : Decimal :=
  let ds := cs.dropWhile (· = '0')
  let head := digitsValue (ds.take significance)
  let tail := ds.drop significance
  if tail.all (· = '0') then ⟨head, tail.length⟩ else ⟨head * 10 + 1, tail.length - 1⟩

/-- An exponent takes no more digits once it has this value. -/
def exponentCap : Nat := Nat.pow 2 16

def exponentValue (cs : List Char) : Nat :=
  cs.foldl (fun n c => if n < exponentCap then n * 10 + (c.toNat - '0'.toNat) else n) 0

/-- The exponent that the text consists of, if it is one; no text is exponent zero. -/
def readExponent : List Char → Option Int
  | [] => some 0
  | c :: cs =>
    if c = 'e' ∨ c = 'E' then
      let (negative, rest) := splitSign cs
      if rest.isEmpty || !rest.all Char.isDigit then none
      else
        let n : Int := exponentValue rest
        some (if negative then -n else n)
    else none

def scaled (m : Nat) (e : Int) : Float :=
  Float.ofScientific m (decide (e < 0)) e.natAbs

def readDecimal (cs : List Char) : Option Float :=
  let (whole, rest) := splitDigits cs
  let (fraction, rest) :=
    match rest with
    | '.' :: rest => splitDigits rest
    | _ => ([], rest)
  if whole.isEmpty && fraction.isEmpty then none
  else (readExponent rest).map fun e =>
    let d := condense (whole ++ fraction)
    scaled d.digits (d.exponent + e - fraction.length)

def readSpecial (cs : List Char) : Option Float :=
  let name := String.ofList (cs.map Char.toLower)
  if name = "inf" ∨ name = "infinity" then some (1.0 / 0.0)
  else if name = "nan" then some (0.0 / 0.0)
  else none

def readFloat (cs : List Char) : Option Float :=
  let (negative, rest) := splitSign cs
  (readSpecial rest <|> readDecimal rest).map fun x => if negative then -x else x

/-! ## Writing -/

/-- The two factors that compare decimals on the grid `10 ^ e` with quarters of
quanta: `d * 10 ^ e` is to `u` quarters as `d * factors.1` is to `u * factors.2`. -/
def factors (e : Int) : Nat × Nat :=
  (Nat.pow 10 e.toNat * Nat.pow 2 1076, Nat.pow 10 (-e).toNat)

/-- The decimals on the grid `10 ^ e` that read back as the float of `n` quanta
lie between these two bounds, in quarters of quanta. -/
def bounds (n : Nat) : Nat × Nat :=
  let gap := Nat.pow 2 (excess n)
  let below := if n = Nat.pow 2 52 * gap ∧ 1 < gap then gap else 2 * gap
  (4 * n - below, 4 * n + 2 * gap)

/-- Whether `d * 10 ^ e` reads back as the float of `n` quanta: a bound itself
does exactly if the float's mantissa is even. -/
def readsBack (n d : Nat) (e : Int) : Bool :=
  let (a, b) := factors e
  let (lo, hi) := bounds n
  if n / Nat.pow 2 (excess n) % 2 = 0 then decide (lo * b ≤ d * a ∧ d * a ≤ hi * b)
  else decide (lo * b < d * a ∧ d * a < hi * b)

/-- The point of the grid `10 ^ e` that reads back as the float of `n` quanta
and is nearest to it, if there is one; of two equally near points the larger. -/
def nearestOn (n : Nat) (e : Int) : Option Decimal :=
  let (a, b) := factors e
  let d := 4 * n * b / a
  match readsBack n d e, readsBack n (d + 1) e with
  | false, false => none
  | true, false => some ⟨d, e⟩
  | false, true => some ⟨d + 1, e⟩
  | true, true => if 8 * n * b < (2 * d + 1) * a then some ⟨d, e⟩ else some ⟨d + 1, e⟩

/-- A power of ten that no float of `n` quanta reaches. -/
def ceiling (n : Nat) : Int :=
  Int.fdiv (((n.log2 : Int) - 1074) * 1233) 4096 + 2

/-- The decimal with the fewest digits that reads back as the float of `n`
quanta: the one on the coarsest grid. -/
def shortest (n : Nat) : Decimal :=
  let top := ceiling n
  ((List.range 24).findSome? fun i : Nat => nearestOn n (top - i)).getD ⟨n, 0⟩

structure Style where
  least : Int
  most : Int
  exponentWidth : Nat

def padZeros (width : Nat) (cs : List Char) : List Char :=
  List.replicate (width - cs.length) '0' ++ cs

def withPoint (k : Nat) (ds : List Char) : List Char :=
  if ds.length ≤ k then ds else ds.take k ++ '.' :: ds.drop k

def positional (ds : List Char) (e : Int) : List Char :=
  if 0 ≤ e then ds ++ List.replicate e.toNat '0'
  else
    let ds := padZeros ((-e).toNat + 1) ds
    withPoint (ds.length - (-e).toNat) ds

def scientific (width : Nat) (ds : List Char) (lead : Int) : List Char :=
  withPoint 1 ds ++ 'e' :: (if lead < 0 then '-' else '+') ::
    padZeros width (Nat.toDigits 10 lead.natAbs)

def Style.layout (style : Style) (d : Decimal) : List Char :=
  let ds := Nat.toDigits 10 d.digits
  let lead := d.exponent + ds.length - 1
  if style.least ≤ lead ∧ lead ≤ style.most then positional ds d.exponent
  else scientific style.exponentWidth ds lead

def printed : Style where
  least := -4
  most := 16
  exponentWidth := 2

def renderFloat (x : Float) : String :=
  if x.isNaN then "nan"
  else
    let sign := if hasSign x then "-" else ""
    if x.isInf then sign ++ "inf"
    else if quanta x = 0 then sign ++ "0"
    else sign ++ String.ofList (printed.layout (shortest (quanta x)))

end Lisplet.Number
