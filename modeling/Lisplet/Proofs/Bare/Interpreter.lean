import Lisplet.Eval.Interpreter
import Lisplet.Proofs.Bare.Operations

/-!
# The bare interpreter

The interpreter with its partial steps as they are made. Operands are taken by
their number once the operand count has been checked, a frame is entered around
arguments that are expected on the stack and is expected to have room for them,
and it is left at a depth that is expected not to be zero. A step whose
expectation fails has no result.
-/

namespace Lisplet.Bare

/-- A computation on the machine that may be without a result. -/
def Act (α : Type) : Type := Machine → Option (EStateM.Result Stop Machine α)

namespace Act

instance : Monad Act where
  pure a := fun m => some (.ok a m)
  bind x f := fun m =>
    match x m with
    | none => none
    | some (.error e m) => some (.error e m)
    | some (.ok a m) => f a m

def lift (act : Eval α) : Act α := fun m => some (act m)

def need (o : Option α) : Act α := fun m => o.map fun a => .ok a m

def orUndo (act : Act α) (undo : Machine → Machine) : Act α := fun m =>
  (act m).map fun
    | .ok a m => .ok a m
    | .error e m => .error e (undo m)

def thenClose (act : Act α) (close : Machine → Machine) : Act α := fun m =>
  (act m).map fun
    | .ok a m => .ok a (close m)
    | .error e m => .error e (close m)

def make (f : Heap → Option (α × Heap)) : Act α := fun m =>
  match m with
  | ⟨heap, stack, sink, log⟩ => (f heap).map fun (a, heap) => .ok a ⟨heap, stack, sink, log⟩

def onHeap (f : Heap → Option Heap) : Act Unit := fun m =>
  (f m.heap).map fun heap => .ok () (m.onHeap fun _ => heap)

end Act

open Act

structure Walk where
  eval : Node → Act (Option Value)
  block : Node → Act Flow

/-! ## Several nodes -/

def operand (args : List Node) (i : Nat) : Act Node := need args[i]?

/-- The operands of a table, two and two; one that is left over stands alone. -/
def pairs : List Node → List (List Node)
  | k :: e :: rest => [k, e] :: pairs rest
  | [k] => [[k]]
  | [] => []

def operation (k : Keyword) (vs : List (Option Value)) : Act (Option Value) := fun m =>
  match m with
  | ⟨heap, stack, sink, log⟩ =>
    (applyOperation k vs heap).map fun (result, heap) =>
      match result with
      | some v => .ok v ⟨heap.releaseAll vs, stack, sink, log⟩
      | none => .error .exhausted ⟨heap.releaseAll vs, stack, sink, log⟩

namespace Walk

def evalAt (w : Walk) (args : List Node) : List Nat → Act (List (Option Value))
  | [] => pure []
  | i :: is => do
    let n ← operand args i
    let v ← w.eval n
    let vs ← (w.evalAt args is).orUndo (Machine.release v)
    pure (v :: vs)

def evalAll (w : Walk) : List Node → Act (List (Option Value))
  | [] => pure []
  | n :: ns => do
    let v ← w.eval n
    let vs ← (w.evalAll ns).orUndo (Machine.release v)
    pure (v :: vs)

def pushAll (w : Walk) : List Node → Act Unit
  | [] => pure ()
  | n :: ns => do
    let v ← w.eval n
    lift (Eval.push v)
    w.pushAll ns

def sequence (w : Walk) : List Node → Act Flow
  | [] => pure .normal
  | n :: ns => do
    match ← w.block n with
    | .normal => w.sequence ns
    | flow => pure flow

def addEntries (w : Walk) (t : Table) : List (List Node) → Act Table
  | [] => pure t
  | pair :: rest => do
    let k ← operand pair 0
    match ← (w.eval k).orUndo (·.releaseTable t) with
    | some (.str r text) =>
      let e ← operand pair 1
      let v ← (w.eval e).orUndo fun m => (m.release (some (.str r text))).releaseTable t
      let t ← make fun h => putEntry h t ⟨r, text⟩ v
      w.addEntries t rest
    | other =>
      lift (Eval.release other)
      w.addEntries t rest

def test (w : Walk) (n : Node) : Act Bool := do
  let v ← w.eval n
  let b ← lift (Eval.inspect fun h => h.truthy v)
  lift (Eval.release v)
  pure b

def assign (w : Walk) (target e : Node) : Act (Option Value) := do
  let slot ← lift (Eval.checked (slotOf target))
  let v ← w.eval e
  lift (Eval.onHeap fun h => h.retain v)
  lift (Eval.setSlot slot v)
  pure v

end Walk

/-! ## Calls -/

/-- Enters a frame around the topmost `args` values. They have to be there, and
the frame must not drop one of them. -/
def enter (m : Machine) (args locals : Nat) : Option (Frame × Machine) :=
  if args ≤ m.stack.size ∧ args ≤ locals then some (m.enter args locals) else none

def leave (m : Machine) (frame : Frame) : Option Machine :=
  if 1 ≤ m.stack.depth then some (m.leave frame) else none

def call (c : Code) (w : Walk) (index : Nat) (args : List Node) (span : Span) :
    Act (Option Value) := fun m =>
  match c.program.function? index with
  | none => lift (Eval.fail (.unresolved ("#" ++ toString index) span)) m
  | some f =>
    if c.isFull m.stack.depth then
      lift (Eval.fail (.callDepthExceeded (c.limit.getD 0) span)) m
    else if args.length ≠ f.arity then
      lift (Eval.fail (.argumentCount f.name f.arity args.length span)) m
    else
      ((w.pushAll args).orUndo (Machine.truncate m.stack.size) m).bind fun
        | .error e m => some (.error e m)
        | .ok () m =>
          (enter (m.note (.called f.name args.length)) args.length f.locals).bind fun (frame, m) =>
            (w.sequence (c.program.body index) m).bind fun
              | .error e m => (leave m frame).map fun m => .error e m
              | .ok (.returned v) m => (leave m frame).map fun m => .ok v m
              | .ok .normal m => (leave m frame).map fun m => .ok none m

/-! ## Expressions -/

/-- Evaluates a form that starts with a keyword. Which operands are taken depends
on the keyword alone, except that a minus sign looks for a second one. -/
def evalKeyword (w : Walk) (k : Keyword) (args : List Node) (span : Span) :
    Act (Option Value) := do
  lift (Eval.checked (checkArity k args span))
  match k with
  | .and =>
    let v ← w.eval (← operand args 0)
    if ← lift (Eval.inspect fun h => h.truthy v) then
      lift (Eval.release v)
      w.eval (← operand args 1)
    else pure v
  | .or =>
    let v ← w.eval (← operand args 0)
    if ← lift (Eval.inspect fun h => h.truthy v) then pure v
    else
      lift (Eval.release v)
      w.eval (← operand args 1)
  | .ternary =>
    if ← w.test (← operand args 0) then w.eval (← operand args 1) else w.eval (← operand args 2)
  | .list =>
    let vs ← w.evalAll args
    let v ← lift (Eval.make fun h => h.newList vs.toArray)
    pure (some v)
  | .table =>
    let t ← w.addEntries {} (pairs args)
    let v ← lift (Eval.make fun h => h.newTable t)
    pure (some v)
  | .set => w.assign (← operand args 0) (← operand args 1)
  | .add | .mul | .div | .mod | .eq | .lt | .gt | .item | .index =>
    let vs ← w.evalAt args [0, 1]
    operation k vs
  | .sub =>
    let vs ← w.evalAt args (if args.length = 1 then [0] else [0, 1])
    operation k vs
  | .not | .len | .bool | .int | .float | .str | .typeOf =>
    let vs ← w.evalAt args [0]
    operation k vs
  | .defun | .ifThen | .otherwise | .whileLoop | .forEach | .ret | .print | .setItem | .push
  | .remove => lift (Eval.fail (.notAnExpression k span))

def evalNode (c : Code) (w : Walk) : Node → Act (Option Value)
  | .leaf l => lift (evalLeaf l)
  | .branch [] span _ => lift (Eval.fail (.emptyForm span))
  | .branch (.branch _ s _ :: _) _ _ => lift (Eval.fail (.notCallable s))
  | .branch (.leaf head :: args) span _ =>
    match head.kind with
    | .keyword k => evalKeyword w k args span
    | .identifier => do
      let index ← lift (Eval.checked (functionOf head))
      call c w index args span
    | _ => lift (Eval.fail (.notCallable head.span))

/-! ## Statements -/

def whileLoop (test : Act Bool) (body : Act Flow) : Nat → Act Flow
  | 0 => lift Eval.exhausted
  | fuel + 1 => do
    if ← test then
      match ← body with
      | .normal => whileLoop test body fuel
      | flow => pure flow
    else pure .normal

def forLoop (slot : Nat) (r : Ref) (body : Act Flow) : Nat → Nat → Act Flow
  | 0, _ => lift Eval.exhausted
  | fuel + 1, i => do
    match ← lift (Eval.inspect fun h => (h.itemsAt r)[i]?) with
    | none => pure .normal
    | some v =>
      lift (Eval.onHeap fun h => h.retain v)
      lift (Eval.setSlot slot v)
      match ← body with
      | .normal => forLoop slot r body fuel (i + 1)
      | flow => pure flow

def runKeyword (w : Walk) (fuel : Nat) (k : Keyword) (args : List Node) (span : Span) :
    Act Flow := do
  lift (Eval.checked (checkArity k args span))
  match k with
  | .set =>
    let v ← w.assign (← operand args 0) (← operand args 1)
    lift (Eval.release v)
    pure .normal
  | .print =>
    let v ← w.eval (← operand args 0)
    lift ((Eval.print fuel v span).thenClose (Machine.release v))
    pure .normal
  | .setItem =>
    let vs ← w.evalAt args [0, 1, 2]
    onHeap (store k vs)
    pure .normal
  | .push | .remove =>
    let vs ← w.evalAt args [0, 1]
    onHeap (store k vs)
    pure .normal
  | .ifThen =>
    match ifParts args with
    | none => lift (Eval.fail (.malformed k span))
    | some (cond, a, b) =>
      if ← w.test cond then w.block a
      else match b with
        | some b => w.block b
        | none => pure .normal
  | .whileLoop =>
    match args with
    | cond :: body => whileLoop (w.test cond) (w.sequence body) fuel
    | [] => lift (Eval.fail (.malformed k span))
  | .forEach =>
    match args with
    | var :: list :: body =>
      let slot ← lift (Eval.checked (slotOf var))
      match ← w.eval list with
      | some (.list r) =>
        (forLoop slot r (w.sequence body) fuel 0).thenClose (Machine.release (some (.list r)))
      | other =>
        lift (Eval.release other)
        pure .normal
    | _ => lift (Eval.fail (.malformed k span))
  | .ret =>
    match args.head? with
    | some e =>
      let v ← w.eval e
      pure (.returned v)
    | none => pure (.returned none)
  | k => lift (Eval.fail (.notAStatement k span))

def runForm (c : Code) (w : Walk) (fuel : Nat) (children : List Node) (span : Span) : Act Flow :=
  match children with
  | [] => pure .normal
  | .branch _ s _ :: _ => lift (Eval.fail (.notCallable s))
  | .leaf head :: args =>
    match head.kind with
    | .keyword k => runKeyword w fuel k args span
    | .identifier => do
      let index ← lift (Eval.checked (functionOf head))
      let v ← call c w index args span
      lift (Eval.release v)
      pure .normal
    | _ => lift (Eval.fail (.notCallable head.span))

def runBlock (c : Code) (w : Walk) (fuel : Nat) : Node → Act Flow
  | .leaf l => lift (Eval.fail (statementLeaf l))
  | .branch (.branch cs s tag :: rest) _ _ => w.sequence (.branch cs s tag :: rest)
  | .branch children span _ => runForm c w fuel children span

/-! ## The interpreter -/

mutual

def eval (c : Code) : Nat → Node → Act (Option Value)
  | 0, _ => lift Eval.exhausted
  | fuel + 1, n => evalNode c ⟨eval c fuel, block c fuel⟩ n

def block (c : Code) : Nat → Node → Act Flow
  | 0, _ => lift Eval.exhausted
  | fuel + 1, n => runBlock c ⟨eval c fuel, block c fuel⟩ fuel n

end

def exec (c : Code) (fuel : Nat) (children : List Node) (span : Span) : Act Flow :=
  runForm c ⟨eval c fuel, block c fuel⟩ fuel children span

def run (c : Code) (fuel : Nat) : Act (Option Value) := fun m =>
  let span := match c.program.function? 0 with
    | some f => f.span
    | none => default
  ((call c ⟨eval c fuel, block c fuel⟩ 0 [] span).thenClose fun m =>
    m.note (.mainFinished m.stack.size)) (m.note .mainStarted)

end Lisplet.Bare
