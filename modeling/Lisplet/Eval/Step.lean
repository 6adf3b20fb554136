import Lisplet.Builtin.Arithmetic
import Lisplet.Builtin.Collection
import Lisplet.Builtin.Comparison
import Lisplet.Builtin.Conversion
import Lisplet.Eval.Machine
import Lisplet.Program

/-!
# One step down the tree

How a node is evaluated or run, given how the nodes below it are: `Walk` stands
for the two ways down. Every rule first looks at the shape of its form and only
then at the nodes in it.

Whoever evaluates a node owns its value, and has to pass it on or let it go. If
a later step stops, the values that wait for it are let go as well.
-/

namespace Lisplet

inductive Flow
  | normal
  | returned (value : Option Value)

structure Code where
  program : Program
  limit : Option Nat := none

/-- How nodes are evaluated and how they are run as blocks. -/
structure Walk where
  eval : Node → Eval (Option Value)
  block : Node → Eval Flow

/-! ## Shapes -/

def checkArity (k : Keyword) (args : List Node) (span : Span) : Except RuntimeError Unit :=
  match k.arity? with
  | none => .ok ()
  | some arity =>
    if arity.accepts args.length then .ok ()
    else if k = .table then .error (.malformed k span)
    else .error (.arity k arity args.length span)

def slotOf : Node → Except RuntimeError Nat
  | .branch _ span _ => .error (.expectedVariable span)
  | .leaf l =>
    match l.binding with
    | some (.slot i) => .ok i
    | _ => .error (.expectedVariable l.span)

def functionOf (l : Leaf) : Except RuntimeError Nat :=
  match l.binding with
  | some (.function i) => .ok i
  | some (.slot _) => .error (.notAFunction l.text l.span)
  | none => .error (.unresolved l.text l.span)

def statementLeaf (l : Leaf) : RuntimeError :=
  match l.keyword? with
  | some k => .keywordInLeaf k l.span
  | none => .expectedStatement l.span

/-- Condition, branch and alternative of `(if C A)`, `(if C A B)` and
`(if C A else B)`. -/
def ifParts : List Node → Option (Node × Node × Option Node)
  | [c, a] => some (c, a, none)
  | [c, a, b] => if b.keyword? = some .otherwise then none else some (c, a, some b)
  | [c, a, mark, b] => if mark.keyword? = some .otherwise then some (c, a, some b) else none
  | _ => none

def Eval.checked (r : Except RuntimeError α) : Eval α :=
  match r with
  | .ok a => pure a
  | .error e => fail e

/-! ## Leaves -/

def evalLeaf (l : Leaf) : Eval (Option Value) :=
  match l.kind with
  | .str text =>
    match l.cell with
    | some r => do
      Eval.onHeap fun h => h.retainRef r
      pure (some (.str r text))
    | none => do
      let v ← Eval.make fun h => h.newStr text
      pure (some v)
  | .bool b => pure (some (.bool b))
  | .null => pure none
  | .int n => pure (some (.int n))
  | .float x => pure (some (.float x))
  | .keyword k => .fail (.keywordInLeaf k l.span)
  | .identifier =>
    match l.binding with
    | some (.slot i) => Eval.getSlot i
    | some (.function _) => .fail (.functionAsValue l.text l.span)
    | none => .fail (.unresolved l.text l.span)

/-! ## Operations on evaluated operands -/

/-- The value of an operation whose operands are all evaluated, from the operands
alone; nothing if it cannot be computed. -/
def applyOperation (k : Keyword) (vs : List (Option Value)) (h : Heap) :
    Option (Option Value) × Heap :=
  match k, vs with
  | .add, [l, r] =>
    let (v, h) := Builtin.add h l r
    (some v, h)
  | .sub, [v] => (some (Builtin.neg v), h)
  | .sub, [l, r] => (some (Builtin.sub l r), h)
  | .mul, [l, r] => (some (Builtin.mul l r), h)
  | .div, [l, r] => (some (Builtin.div l r), h)
  | .mod, [l, r] => (some (Builtin.rem l r), h)
  | .eq, [l, r] => (some (some (.bool (Builtin.equals l r))), h)
  | .lt, [l, r] => (some (Builtin.less l r), h)
  | .gt, [l, r] => (some (Builtin.greater l r), h)
  | .not, [v] => (some (Builtin.negation v), h)
  | .item, [c, key] =>
    let (v, h) := Builtin.getItem h c key
    (some v, h)
  | .len, [c] => (some (Builtin.length h c), h)
  | .index, [c, v] => (some (Builtin.indexOf h c v), h)
  | .bool, [v] => (some (some (.bool (h.truthy v))), h)
  | .int, [v] => (some (Builtin.toInt v), h)
  | .float, [v] => (some (Builtin.toFloat v), h)
  | .str, [v] =>
    let (s, h) := Builtin.toStr h v
    (s.map some, h)
  | .typeOf, [v] =>
    let (s, h) := Builtin.typeOf h v
    (some (some s), h)
  | _, _ => (none, h)

def operation (k : Keyword) (vs : List (Option Value)) : Eval (Option Value) := fun m =>
  match m with
  | ⟨heap, stack, sink, log⟩ =>
    let (result, heap) := applyOperation k vs heap
    match result with
    | some v => .ok v ⟨heap.releaseAll vs, stack, sink, log⟩
    | none => .error .exhausted ⟨heap.releaseAll vs, stack, sink, log⟩

/-- Changes a collection and lets go of the operands that it does not store. -/
def store (k : Keyword) (vs : List (Option Value)) (h : Heap) : Heap :=
  match k, vs with
  | .setItem, [c, key, v] => (Builtin.setItem h c key v).releaseAll [c, key]
  | .push, [c, v] => (Builtin.push h c v).releaseAll [c]
  | .remove, [c, key] => (Builtin.remove h c key).releaseAll [c, key]
  | _, vs => h.releaseAll vs

/-! ## Several nodes -/

namespace Walk

def evalAll (w : Walk) : List Node → Eval (List (Option Value))
  | [] => pure []
  | n :: ns => do
    let v ← w.eval n
    let vs ← (w.evalAll ns).orUndo (Machine.release v)
    pure (v :: vs)

def pushAll (w : Walk) : List Node → Eval Unit
  | [] => pure ()
  | n :: ns => do
    let v ← w.eval n
    Eval.push v
    w.pushAll ns

def sequence (w : Walk) : List Node → Eval Flow
  | [] => pure .normal
  | n :: ns => do
    match ← w.block n with
    | .normal => w.sequence ns
    | flow => pure flow

/-- Adds keys and values to a table. A key that is no string is passed over
together with its value. -/
def addEntries (w : Walk) (t : Table) : List Node → Eval Table
  | k :: e :: rest => do
    match ← (w.eval k).orUndo (·.releaseTable t) with
    | some (.str r text) =>
      let v ← (w.eval e).orUndo fun m => (m.release (some (.str r text))).releaseTable t
      let t ← Eval.make fun h => h.putEntry t ⟨r, text⟩ v
      w.addEntries t rest
    | other =>
      Eval.release other
      w.addEntries t rest
  | _ => pure t

def test (w : Walk) (n : Node) : Eval Bool := do
  let v ← w.eval n
  let b ← Eval.inspect fun h => h.truthy v
  Eval.release v
  pure b

def assign (w : Walk) (target e : Node) : Eval (Option Value) := do
  let slot ← Eval.checked (slotOf target)
  let v ← w.eval e
  Eval.onHeap fun h => h.retain v
  Eval.setSlot slot v
  pure v

end Walk

/-! ## Calls -/

namespace Code

def isFull (c : Code) (depth : Nat) : Bool :=
  match c.limit with
  | some limit => limit ≤ depth
  | none => false

def call (c : Code) (w : Walk) (index : Nat) (args : List Node) (span : Span) :
    Eval (Option Value) := fun m =>
  match c.program.function? index with
  | none => Eval.fail (.unresolved ("#" ++ toString index) span) m
  | some f =>
    if c.isFull m.stack.depth then Eval.fail (.callDepthExceeded (c.limit.getD 0) span) m
    else if args.length ≠ f.arity then
      Eval.fail (.argumentCount f.name f.arity args.length span) m
    else
      let mark := m.stack.size
      match ((w.pushAll args).orUndo (Machine.truncate mark)) m with
      | .error e m => .error e m
      | .ok () m =>
        let (frame, m) := (m.note (.called f.name args.length)).enter args.length f.locals
        match ((w.sequence (c.program.body index)).thenClose (Machine.leave frame)) m with
        | .error e m => .error e m
        | .ok (.returned v) m => .ok v m
        | .ok .normal m => .ok none m

/-! ## Expressions -/

def evalKeyword (w : Walk) (k : Keyword) (args : List Node) (span : Span) :
    Eval (Option Value) := do
  Eval.checked (checkArity k args span)
  match k, args with
  | .and, [a, b] =>
    let v ← w.eval a
    if ← Eval.inspect fun h => h.truthy v then
      Eval.release v
      w.eval b
    else pure v
  | .or, [a, b] =>
    let v ← w.eval a
    if ← Eval.inspect fun h => h.truthy v then pure v
    else
      Eval.release v
      w.eval b
  | .ternary, [cond, a, b] =>
    if ← w.test cond then w.eval a else w.eval b
  | .list, args =>
    let vs ← w.evalAll args
    let v ← Eval.make fun h => h.newList vs.toArray
    pure (some v)
  | .table, args =>
    let t ← w.addEntries {} args
    let v ← Eval.make fun h => h.newTable t
    pure (some v)
  | .set, [target, e] => w.assign target e
  | .defun, _ | .ifThen, _ | .otherwise, _ | .whileLoop, _ | .forEach, _ | .ret, _
  | .print, _ | .setItem, _ | .push, _ | .remove, _ => Eval.fail (.notAnExpression k span)
  | k, args =>
    let vs ← w.evalAll args
    operation k vs

def evalNode (c : Code) (w : Walk) : Node → Eval (Option Value)
  | .leaf l => evalLeaf l
  | .branch [] span _ => .fail (.emptyForm span)
  | .branch (.branch _ s _ :: _) _ _ => .fail (.notCallable s)
  | .branch (.leaf head :: args) span _ =>
    match head.kind with
    | .keyword k => evalKeyword w k args span
    | .identifier => do
      let index ← Eval.checked (functionOf head)
      c.call w index args span
    | _ => .fail (.notCallable head.span)

/-! ## Statements -/

def whileLoop (test : Eval Bool) (body : Eval Flow) : Nat → Eval Flow
  | 0 => .exhausted
  | fuel + 1 => fun m =>
    match test m with
    | .error e m => .error e m
    | .ok false m => .ok .normal m
    | .ok true m =>
      match body m with
      | .error e m => .error e m
      | .ok .normal m => whileLoop test body fuel m
      | .ok (.returned v) m => .ok (.returned v) m

/-- Runs `body` for the elements of the list at `r` from number `i` on, each in
turn in the variable's slot. The list may change on the way. -/
def forLoop (slot : Nat) (r : Ref) (body : Eval Flow) : Nat → Nat → Eval Flow
  | 0, _ => .exhausted
  | fuel + 1, i => fun m =>
    match (m.heap.itemsAt r)[i]? with
    | none => .ok .normal m
    | some v =>
      match body ((m.onHeap fun h => h.retain v).setSlot slot v) with
      | .error e m => .error e m
      | .ok .normal m => forLoop slot r body fuel (i + 1) m
      | .ok (.returned v) m => .ok (.returned v) m

def runKeyword (w : Walk) (fuel : Nat) (k : Keyword) (args : List Node) (span : Span) :
    Eval Flow := do
  Eval.checked (checkArity k args span)
  match k, args with
  | .set, [target, e] =>
    let v ← w.assign target e
    Eval.release v
    pure .normal
  | .print, [e] =>
    let v ← w.eval e
    (Eval.print fuel v span).thenClose (Machine.release v)
    pure .normal
  | .setItem, _ | .push, _ | .remove, _ =>
    let vs ← w.evalAll args
    Eval.onHeap (store k vs)
    pure .normal
  | .ifThen, args =>
    match ifParts args with
    | none => Eval.fail (.malformed k span)
    | some (cond, a, b) =>
      if ← w.test cond then w.block a
      else match b with
        | some b => w.block b
        | none => pure .normal
  | .whileLoop, cond :: body => whileLoop (w.test cond) (w.sequence body) fuel
  | .forEach, var :: list :: body =>
    let slot ← Eval.checked (slotOf var)
    match ← w.eval list with
    | some (.list r) =>
      (forLoop slot r (w.sequence body) fuel 0).thenClose (Machine.release (some (.list r)))
    | other =>
      Eval.release other
      pure .normal
  | .whileLoop, _ | .forEach, _ => Eval.fail (.malformed k span)
  | .ret, [] => pure (.returned none)
  | .ret, [e] =>
    let v ← w.eval e
    pure (.returned v)
  | k, _ => Eval.fail (.notAStatement k span)

def runForm (c : Code) (w : Walk) (fuel : Nat) (children : List Node) (span : Span) : Eval Flow :=
  match children with
  | [] => pure .normal
  | .branch _ s _ :: _ => .fail (.notCallable s)
  | .leaf head :: args =>
    match head.kind with
    | .keyword k => runKeyword w fuel k args span
    | .identifier => do
      let index ← Eval.checked (functionOf head)
      let v ← c.call w index args span
      Eval.release v
      pure .normal
    | _ => .fail (.notCallable head.span)

/-- Runs a node as a block: a form that starts with a form is a sequence of
blocks, and any other form is a statement. -/
def runBlock (c : Code) (w : Walk) (fuel : Nat) : Node → Eval Flow
  | .leaf l => .fail (statementLeaf l)
  | .branch (.branch cs s tag :: rest) _ _ => w.sequence (.branch cs s tag :: rest)
  | .branch children span _ => c.runForm w fuel children span

end Code

end Lisplet
