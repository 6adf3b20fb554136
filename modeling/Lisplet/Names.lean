/-!
# Names numbered by first use

A name gets the next free number the first time it is seen and keeps it. The
numbers serve directly as function indices and as frame slots.
-/

namespace Lisplet

/-- The names seen so far; a name's number is its place in the list. -/
structure Names where
  list : Array String := #[]
deriving DecidableEq, Repr

namespace Names

def size (ns : Names) : Nat := ns.list.size

def isEmpty (ns : Names) : Bool := ns.list.isEmpty

def find? (ns : Names) (name : String) : Option Nat := ns.list.idxOf? name

def contains (ns : Names) (name : String) : Bool := (ns.find? name).isSome

def name? (ns : Names) (i : Nat) : Option String := ns.list[i]?

def intern (ns : Names) (name : String) : Nat × Names :=
  match ns.find? name with
  | some i => (i, ns)
  | none => (ns.size, ⟨ns.list.push name⟩)

def ofList (names : List String) : Names :=
  names.foldl (fun ns name => (ns.intern name).2) {}

def toList (ns : Names) : List String := ns.list.toList

end Names

end Lisplet
