import Lisplet.Tree

/-!
# Tree dump

A tree on one line, with the numbers that resolution gave to names, prototypes
and definitions. Token texts stand between single quotes as they are.
-/

namespace Lisplet

def Leaf.dumpOnto (l : Leaf) (rest : List Char) : List Char :=
  "Leaf(token='".toList ++ l.text.toList ++
    match l.binding with
    | some b => "', id=".toList ++ (Nat.toDigits 10 b.index ++ ')' :: rest)
    | none => "')".toList ++ rest

def dumpTag (tag : Option Nat) (rest : List Char) : List Char :=
  match tag with
  | some i => "id=".toList ++ (Nat.toDigits 10 i ++ (", ".toList ++ rest))
  | none => rest

namespace Node

mutual

/-- The dump of a node, followed by `rest`. -/
def dumpOnto : Node → List Char → List Char
  | leaf l, rest => l.dumpOnto rest
  | branch cs _ tag, rest =>
    "Branch(".toList ++
      dumpTag tag ("children=[".toList ++ dumpAllOnto cs ("])".toList ++ rest))

def dumpAllOnto : List Node → List Char → List Char
  | [], rest => rest
  | [n], rest => n.dumpOnto rest
  | n :: ns, rest => n.dumpOnto (", ".toList ++ dumpAllOnto ns rest)

end

def dump (n : Node) : String := String.ofList (n.dumpOnto [])

end Node

end Lisplet
