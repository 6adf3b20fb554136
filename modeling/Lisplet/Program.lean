import Lisplet.Tree.Dump

/-!
# Programs

A program is a resolved tree together with the table of its functions. The
function `main` is always first in the table.
-/

namespace Lisplet

structure Function where
  name : String
  /-- the place of its definition among the top-level nodes -/
  form : Nat
  arity : Nat
  /-- number of slots that a call needs, parameters included -/
  locals : Nat
  span : Span
deriving DecidableEq, Repr

structure Program where
  root : Node
  functions : List Function

namespace Program

def function? (p : Program) (index : Nat) : Option Function :=
  p.functions[index]?

def find? (p : Program) (name : String) : Option Nat :=
  p.functions.findIdx? fun f => f.name == name

def body (p : Program) (index : Nat) : List Node :=
  match p.function? index with
  | none => []
  | some f =>
    match p.root.children[f.form]? with
    | some form => form.children.drop 2
    | none => []

def dump (p : Program) : String := p.root.dump

end Program

end Lisplet
