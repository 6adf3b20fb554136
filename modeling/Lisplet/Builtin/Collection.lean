import Lisplet.Builtin.Comparison
import Lisplet.Heap
import Lisplet.Text.Character
import Lisplet.Text.Occurrence

/-!
# Collections

Reading an element, a length or a position gives no value where it makes no
sense. Writing where it makes no sense does nothing. Readers only look at their
operands; a writer takes over the value that it is given to store.
-/

namespace Lisplet.Builtin

def position? : Option Value → Option Nat
  | some (.int n) => if 0 ≤ n then some n.toNatClampNeg else none
  | _ => none

def count (n : Nat) : Value := .int (Number.clamp n)

/-! ## Reading -/

/-- The element that `key` selects, still owned by the collection only; the text
of a character of a string. -/
def select (h : Heap) : Option Value → Option Value → Option Value ⊕ String
  | some (.str _ s), key =>
    match (position? key).bind (Text.charAt? s) with
    | some c => .inr (String.singleton c)
    | none => .inl none
  | some (.list r), key | some (.tuple r), key =>
    .inl ((position? key).bind fun i => (h.itemsAt r)[i]?.join)
  | some (.table r), some (.str _ key) => .inl ((h.tableAt r).get? key).join
  | _, _ => .inl none

/-- `(item c key)`: the element, with the caller as one more owner. -/
def getItem (h : Heap) (c key : Option Value) : Option Value × Heap :=
  match select h c key with
  | .inl v => (v, h.retain v)
  | .inr text =>
    let (v, h) := h.newStr text
    (some v, h)

def length (h : Heap) : Option Value → Option Value
  | some (.str _ s) => some (count s.length)
  | some (.list r) | some (.tuple r) => some (count (h.itemsAt r).size)
  | some (.table r) => some (count (h.tableAt r).size)
  | _ => none

def indexOf (h : Heap) : Option Value → Option Value → Option Value
  | some (.list r), some v => ((h.itemsAt r).findIdx? fun x => equals x (some v)).map count
  | some (.str _ s), some (.str _ t) => (Text.occurrence t.toList s.toList).map count
  | _, _ => none

/-! ## Writing -/

def setElement (h : Heap) (r : Ref) (i : Nat) (v : Option Value) : Heap :=
  match (h.itemsAt r)[i]? with
  | some old => (h.modifyList r fun items => items.setIfInBounds i v).release old
  | none => h.release v

/-- Stores a value in a table, under a key that the caller owns as well. -/
def setEntry (h : Heap) (r : Ref) (key : Key) (v : Option Value) : Heap :=
  match (h.tableAt r).get? key.text with
  | some old => (h.modifyTable r fun t => t.set key v).releaseRefs (key.ref :: Value.refs old)
  | none => h.modifyTable r fun t => t.set key v

def setItem (h : Heap) (c key v : Option Value) : Heap :=
  match c, key with
  | some (.list r), key =>
    match position? key with
    | some i => setElement h r i v
    | none => h.release v
  | some (.table r), some (.str k text) => setEntry (h.retainRef k) r ⟨k, text⟩ v
  | _, _ => h.release v

def push (h : Heap) (c v : Option Value) : Heap :=
  match c with
  | some (.list r) => h.modifyList r fun items => items.push v
  | _ => h.release v

def removeElement (h : Heap) (r : Ref) (i : Nat) : Heap :=
  match (h.itemsAt r)[i]? with
  | some old => (h.modifyList r fun items => items.eraseIdxIfInBounds i).release old
  | none => h

def removeEntry (h : Heap) (r : Ref) (text : String) : Heap :=
  match (h.tableAt r).find? text with
  | some e => (h.modifyTable r fun t => t.erase text).releaseRefs e.refs
  | none => h

def remove (h : Heap) (c key : Option Value) : Heap :=
  match c, key with
  | some (.list r), key =>
    match position? key with
    | some i => removeElement h r i
    | none => h
  | some (.table r), some (.str _ text) => removeEntry h r text
  | _, _ => h

end Lisplet.Builtin
