import Lisplet.Value

/-!
# The call stack

The variables of all running calls lie in one row of slots. The innermost call
owns the slots from `base` on, and its variables are numbered from there. A call
pushes its arguments, then enters a frame around them, and leaving the frame
drops it as a whole. Operations that drop values say which, so that the heap can
be told.
-/

namespace Lisplet

structure CallStack where
  slots : Array (Option Value) := #[]
  base : Nat := 0
  depth : Nat := 0

/-- What leaving a call needs: the base of the caller and the call's own. -/
structure Frame where
  callerBase : Nat
  base : Nat
deriving DecidableEq, Repr

namespace CallStack

def size (s : CallStack) : Nat := s.slots.size

def isEmpty (s : CallStack) : Bool := s.slots.isEmpty

def push (s : CallStack) (v : Option Value) : CallStack :=
  { s with slots := s.slots.push v }

def get (s : CallStack) (slot : Nat) : Option Value :=
  s.slots[s.base + slot]?.join

/-- Sets a variable of the innermost call, and gives the value that is dropped:
the former one, or the new one if there is no such slot. -/
def set (s : CallStack) (slot : Nat) (v : Option Value) : Option Value × CallStack :=
  match s.slots[s.base + slot]? with
  | some old => (old, { s with slots := s.slots.setIfInBounds (s.base + slot) v })
  | none => (v, s)

def truncate (s : CallStack) (size : Nat) : List (Option Value) × CallStack :=
  ((s.slots.extract size s.slots.size).toList, { s with slots := s.slots.shrink size })

/-- Enters a frame of `locals` slots, the first of which are the topmost `args`
values. -/
def enter (s : CallStack) (args locals : Nat) : Frame × List (Option Value) × CallStack :=
  let base := s.size - args
  let (dropped, t) := s.truncate (base + locals)
  let slots := t.slots ++ Array.replicate (base + locals - t.size) none
  (⟨s.base, base⟩, dropped, ⟨slots, base, s.depth + 1⟩)

def leave (s : CallStack) (frame : Frame) : List (Option Value) × CallStack :=
  let (dropped, t) := s.truncate frame.base
  (dropped, { t with base := frame.callerBase, depth := t.depth - 1 })

end CallStack

end Lisplet
