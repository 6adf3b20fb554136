import Lisplet.Value

/-!
# Tables

A table maps texts to possibly absent values and keeps its entries in the order
in which their keys first came. A key is a string object of its own.
-/

namespace Lisplet

structure Key where
  ref : Ref
  text : String

structure Entry where
  key : Key
  value : Option Value

def Entry.refs (e : Entry) : List Ref := e.key.ref :: Value.refs e.value

structure Table where
  entries : Array Entry := #[]

namespace Table

def size (t : Table) : Nat := t.entries.size

def isEmpty (t : Table) : Bool := t.entries.isEmpty

def position? (t : Table) (text : String) : Option Nat :=
  t.entries.findIdx? fun e => e.key.text == text

def find? (t : Table) (text : String) : Option Entry :=
  (t.position? text).bind fun i => t.entries[i]?

def get? (t : Table) (text : String) : Option (Option Value) :=
  (t.find? text).map Entry.value

/-- Puts a value in the place of the present one for the key's text, or at the
end with the key if there is none. -/
def set (t : Table) (key : Key) (value : Option Value) : Table :=
  match t.position? key.text with
  | some i => ⟨t.entries.modify i fun e => { e with value := value }⟩
  | none => ⟨t.entries.push ⟨key, value⟩⟩

def erase (t : Table) (text : String) : Table :=
  match t.position? text with
  | some i => ⟨t.entries.eraseIdxIfInBounds i⟩
  | none => t

def toList (t : Table) : List (String × Option Value) :=
  t.entries.toList.map fun e => (e.key.text, e.value)

def refs (t : Table) : List Ref := t.entries.toList.flatMap Entry.refs

end Table

end Lisplet
