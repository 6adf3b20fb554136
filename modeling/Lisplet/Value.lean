/-!
# Values

Booleans and numbers are values by themselves. Strings, tuples, lists and tables
are objects on a heap, and a value refers to one. A string never changes, so a
reference to one carries its text. The absence of a value is `none` wherever a
value may be missing.
-/

namespace Lisplet

abbrev Ref := Nat

inductive Value
  | bool (value : Bool)
  | int (value : Int64)
  | float (value : Float)
  | str (ref : Ref) (text : String)
  | tuple (ref : Ref)
  | list (ref : Ref)
  | table (ref : Ref)
deriving Inhabited

namespace Value

def ref? : Value → Option Ref
  | bool _ | int _ | float _ => none
  | str r _ | tuple r | list r | table r => some r

def typeName : Value → String
  | bool _ => "bool"
  | int _ => "int"
  | float _ => "float"
  | str _ _ => "str"
  | tuple _ => "tuple"
  | list _ => "list"
  | table _ => "table"

def sameObject (a b : Value) : Bool :=
  a.ref?.isSome && a.ref? == b.ref?

def refs (v : Option Value) : List Ref := (v.bind ref?).toList

end Value

end Lisplet
