import Lisplet.CallStack
import Lisplet.Eval.Error
import Lisplet.Log
import Lisplet.Piece
import Lisplet.Sink

/-!
# The machine

What a running program changes: the heap, the call stack, the output and the
log. A step of evaluation transforms the machine and gives a result, or stops
with a runtime error or because it ran out of fuel. Whoever stops leaves the
machine as it is at that moment, so that a caller can give back what it holds.
-/

namespace Lisplet

structure Machine where
  heap : Heap := {}
  stack : CallStack := {}
  sink : Sink := {}
  log : Log := {}

inductive Stop
  | error (error : RuntimeError)
  | exhausted

abbrev Eval := EStateM Stop Machine

namespace Eval

def fail (e : RuntimeError) : Eval α := fun m => .error (.error e) m

def exhausted : Eval α := fun m => .error .exhausted m

/-- Runs `act`, and if it stops, undoes what had to wait for it. -/
def orUndo (act : Eval α) (undo : Machine → Machine) : Eval α := fun m =>
  match act m with
  | .ok a m => .ok a m
  | .error e m => .error e (undo m)

/-- Runs `act` and then `close`, whether `act` stops or not. -/
def thenClose (act : Eval α) (close : Machine → Machine) : Eval α := fun m =>
  match act m with
  | .ok a m => .ok a (close m)
  | .error e m => .error e (close m)

end Eval

namespace Machine

def onHeap (m : Machine) (f : Heap → Heap) : Machine :=
  match m with
  | ⟨heap, stack, sink, log⟩ => ⟨f heap, stack, sink, log⟩

def release (v : Option Value) (m : Machine) : Machine := m.onHeap fun h => h.release v

def releaseTable (m : Machine) (t : Table) : Machine := m.onHeap fun h => h.releaseRefs t.refs

def note (e : Event) (m : Machine) : Machine :=
  match m with
  | ⟨heap, stack, sink, log⟩ => ⟨heap, stack, sink, log.add e⟩

def truncate (size : Nat) (m : Machine) : Machine :=
  match m with
  | ⟨heap, stack, sink, log⟩ =>
    let (dropped, stack) := stack.truncate size
    ⟨heap.releaseAll dropped, stack, sink, log⟩

def enter (args locals : Nat) (m : Machine) : Frame × Machine :=
  match m with
  | ⟨heap, stack, sink, log⟩ =>
    let (frame, dropped, stack) := stack.enter args locals
    (frame, ⟨heap.releaseAll dropped, stack, sink,
      log.add (.frameEntered stack.base locals stack.depth)⟩)

def leave (frame : Frame) (m : Machine) : Machine :=
  match m with
  | ⟨heap, stack, sink, log⟩ =>
    let (dropped, stack) := stack.leave frame
    ⟨heap.releaseAll dropped, stack, sink, log.add (.frameLeft stack.base stack.depth)⟩

def setSlot (slot : Nat) (v : Option Value) (m : Machine) : Machine :=
  match m with
  | ⟨heap, stack, sink, log⟩ =>
    let (dropped, stack) := stack.set slot v
    ⟨heap.release dropped, stack, sink, log⟩

def push (v : Option Value) (m : Machine) : Machine :=
  match m with
  | ⟨heap, stack, sink, log⟩ => ⟨heap, stack.push v, sink, log⟩

end Machine

/-! ## Operations on the heap and the output -/

namespace Eval

def release (v : Option Value) : Eval Unit := fun m => .ok () (m.release v)

def onHeap (f : Heap → Heap) : Eval Unit := fun m => .ok () (m.onHeap f)

def make (f : Heap → α × Heap) : Eval α := fun m =>
  match m with
  | ⟨heap, stack, sink, log⟩ =>
    let (a, heap) := f heap
    .ok a ⟨heap, stack, sink, log⟩

def inspect (f : Heap → α) : Eval α := fun m => .ok (f m.heap) m

/-- The value of a variable, with the caller as one more owner. -/
def getSlot (slot : Nat) : Eval (Option Value) := fun m =>
  let v := m.stack.get slot
  .ok v (m.onHeap fun h => h.retain v)

def setSlot (slot : Nat) (v : Option Value) : Eval Unit := fun m => .ok () (m.setSlot slot v)

def push (v : Option Value) : Eval Unit := fun m => .ok () (m.push v)

def note (e : Event) : Eval Unit := fun m => .ok () (m.note e)

def write (text : String) (span : Span) : Eval Unit := fun m =>
  match m with
  | ⟨heap, stack, sink, log⟩ =>
    let (complete, sink) := sink.write text.toUTF8
    if complete then .ok () ⟨heap, stack, sink, log⟩
    else .error (.error (.output Sink.refusal span)) ⟨heap, stack, sink, log⟩

/-- Writes pieces one after the other. The text of a value that contains itself
ends only when the sink refuses it, or for want of fuel. -/
def writePieces (span : Span) : Nat → List Piece → Eval Unit
  | _, [] => pure ()
  | 0, _ :: _ => exhausted
  | fuel + 1, .text s :: rest => fun m =>
    match write s span m with
    | .error e m => .error e m
    | .ok () m => writePieces span fuel rest m
  | fuel + 1, .value v :: rest => fun m =>
    writePieces span fuel (m.heap.pieces v ++ rest) m

def print (fuel : Nat) (v : Option Value) (span : Span) : Eval Unit :=
  match v with
  | some (.str _ s) => write s span
  | v => writePieces span fuel [.value v, .text "\n"]

end Eval

end Lisplet
