import Lisplet.Eval.Interpreter
import Lisplet.Program.Resolve

/-!
# Evaluation with names

The meaning of a program as it is written, before names are bound: each call has
its own map from names to values, a name stands for a function exactly if a
top-level form defines it, and a call looks its function up by name. There is no
common stack, no slot and no counting of owners. What operations do to values is
taken from the operations themselves.
-/

namespace Lisplet.Named

/-- The variables of a call. A name that was never set is absent. -/
abbrev Vars := String → Option Value

structure State where
  heap : Heap := {}
  sink : Sink := {}
  vars : Vars := fun _ => none
  depth : Nat := 0

abbrev Eval := EStateM Stop State

/-! ## Functions by name -/

structure Procedure where
  params : List Node
  body : List Node
  /-- where its name is declared -/
  span : Span

def defined? (name : String) : Node → Option Procedure
  | .branch (head :: .branch (.leaf l :: params) _ _ :: body) _ _ =>
    if head.keyword? = some .defun ∧ l.name? = some name then some ⟨params, body, l.span⟩ else none
  | _ => none

structure Code where
  root : Node
  limit : Option Nat := none

def Code.procedure? (c : Code) (name : String) : Option Procedure :=
  c.root.children.findSome? (defined? name)

def nameOf? : Node → Option String
  | .leaf l => l.name?
  | .branch _ _ _ => none

def bindArgs : List Node → List (Option Value) → Vars
  | p :: ps, v :: vs => fun x => if nameOf? p = some x then v else bindArgs ps vs x
  | _, _ => fun _ => none

/-! ## Steps -/

structure Walk where
  eval : Node → Eval (Option Value)
  block : Node → Eval Flow

def fail (e : RuntimeError) : Eval α := fun s => .error (.error e) s

def exhausted : Eval α := fun s => .error .exhausted s

def checked (r : Except RuntimeError α) : Eval α :=
  match r with
  | .ok a => pure a
  | .error e => fail e

def make (f : Heap → α × Heap) : Eval α := fun s =>
  .ok (f s.heap).1 { s with heap := (f s.heap).2 }

def setVar (name : String) (v : Option Value) : Eval Unit := fun s =>
  .ok () { s with vars := fun x => if x = name then v else s.vars x }

def inspect (f : Heap → α) : Eval α := fun s => .ok (f s.heap) s

def print (fuel : Nat) (v : Option Value) (span : Span) : Eval Unit := fun s =>
  match Lisplet.Eval.print fuel v span { heap := s.heap, sink := s.sink } with
  | .ok () m => .ok () { s with sink := m.sink }
  | .error e m => .error e { s with sink := m.sink }

def operation (k : Keyword) (vs : List (Option Value)) : Eval (Option Value) := fun s =>
  match applyOperation k vs s.heap with
  | (some v, heap) => .ok v { s with heap := heap }
  | (none, heap) => .error .exhausted { s with heap := heap }

namespace Walk

def evalAll (w : Walk) : List Node → Eval (List (Option Value))
  | [] => pure []
  | n :: ns => do
    let v ← w.eval n
    let vs ← w.evalAll ns
    pure (v :: vs)

def sequence (w : Walk) : List Node → Eval Flow
  | [] => pure .normal
  | n :: ns => do
    match ← w.block n with
    | .normal => w.sequence ns
    | flow => pure flow

def addEntries (w : Walk) (t : Table) : List Node → Eval Table
  | k :: e :: rest => do
    match ← w.eval k with
    | some (.str r text) =>
      let v ← w.eval e
      w.addEntries (t.set ⟨r, text⟩ v) rest
    | _ => w.addEntries t rest
  | _ => pure t

def test (w : Walk) (n : Node) : Eval Bool := do
  let v ← w.eval n
  inspect fun h => h.truthy v

def whileLoop (w : Walk) (cond : Node) (body : List Node) : Nat → Eval Flow
  | 0 => exhausted
  | fuel + 1 => do
    if ← w.test cond then
      match ← w.sequence body with
      | .normal => w.whileLoop cond body fuel
      | flow => pure flow
    else pure .normal

def forLoop (w : Walk) (name : String) (r : Ref) (body : List Node) : Nat → Nat → Eval Flow
  | 0, _ => exhausted
  | fuel + 1, i => do
    match ← inspect fun h => (h.itemsAt r)[i]? with
    | none => pure .normal
    | some v =>
      setVar name v
      match ← w.sequence body with
      | .normal => w.forLoop name r body fuel (i + 1)
      | flow => pure flow

end Walk

namespace Code

/-- The variable that a node names: a name of no function. -/
def variableOf (c : Code) (n : Node) : Except RuntimeError String :=
  match nameOf? n with
  | some name => if (c.procedure? name).isSome then .error (.expectedVariable n.span) else .ok name
  | none => .error (.expectedVariable n.span)

def assign (c : Code) (w : Walk) (target e : Node) : Eval (Option Value) := do
  let name ← checked (c.variableOf target)
  let v ← w.eval e
  setVar name v
  pure v

def call (c : Code) (w : Walk) (f : Procedure) (name : String) (args : List Node) (span : Span) :
    Eval (Option Value) := fun s =>
  if c.limit.any (· ≤ s.depth) then fail (.callDepthExceeded (c.limit.getD 0) span) s
  else if args.length ≠ f.params.length then
    fail (.argumentCount name f.params.length args.length span) s
  else
    match w.evalAll args s with
    | .error e s => .error e s
    | .ok vs s =>
      match w.sequence f.body { s with vars := bindArgs f.params vs, depth := s.depth + 1 } with
      | .error e s => .error e s
      | .ok (.returned v) t => .ok v { t with vars := s.vars, depth := s.depth }
      | .ok .normal t => .ok none { t with vars := s.vars, depth := s.depth }

def callHead (c : Code) (w : Walk) (head : Leaf) (args : List Node) (span : Span) :
    Eval (Option Value) :=
  match c.procedure? head.text with
  | some f => c.call w f head.text args span
  | none => fail (.notAFunction head.text head.span)

/-- Evaluates a leaf. A string literal shares its cell, if it has one. -/
def evalLeaf (c : Code) (l : Leaf) : Eval (Option Value) :=
  match l.kind with
  | .str text =>
    match l.cell with
    | some r => pure (some (.str r text))
    | none => do pure (some (← make fun h => h.newStr text))
  | .bool b => pure (some (.bool b))
  | .null => pure none
  | .int n => pure (some (.int n))
  | .float x => pure (some (.float x))
  | .keyword k => fail (.keywordInLeaf k l.span)
  | .identifier =>
    if (c.procedure? l.text).isSome then fail (.functionAsValue l.text l.span)
    else fun s => .ok (s.vars l.text) s

def evalKeyword (c : Code) (w : Walk) (k : Keyword) (args : List Node) (span : Span) :
    Eval (Option Value) := do
  checked (checkArity k args span)
  match k, args with
  | .and, [a, b] =>
    let v ← w.eval a
    if ← inspect fun h => h.truthy v then w.eval b else pure v
  | .or, [a, b] =>
    let v ← w.eval a
    if ← inspect fun h => h.truthy v then pure v else w.eval b
  | .ternary, [cond, a, b] =>
    if ← w.test cond then w.eval a else w.eval b
  | .list, args =>
    let vs ← w.evalAll args
    let v ← make fun h => h.newList vs.toArray
    pure (some v)
  | .table, args =>
    let t ← w.addEntries {} args
    let v ← make fun h => h.newTable t
    pure (some v)
  | .set, [target, e] => c.assign w target e
  | .defun, _ | .ifThen, _ | .otherwise, _ | .whileLoop, _ | .forEach, _ | .ret, _
  | .print, _ | .setItem, _ | .push, _ | .remove, _ => fail (.notAnExpression k span)
  | k, args =>
    let vs ← w.evalAll args
    operation k vs

def evalNode (c : Code) (w : Walk) : Node → Eval (Option Value)
  | .leaf l => c.evalLeaf l
  | .branch [] span _ => fail (.emptyForm span)
  | .branch (.branch _ s _ :: _) _ _ => fail (.notCallable s)
  | .branch (.leaf head :: args) span _ =>
    match head.kind with
    | .keyword k => c.evalKeyword w k args span
    | .identifier => c.callHead w head args span
    | _ => fail (.notCallable head.span)

def runKeyword (c : Code) (w : Walk) (fuel : Nat) (k : Keyword) (args : List Node) (span : Span) :
    Eval Flow := do
  checked (checkArity k args span)
  match k, args with
  | .set, [target, e] =>
    let _ ← c.assign w target e
    pure .normal
  | .print, [e] =>
    let v ← w.eval e
    print fuel v span
    pure .normal
  | .setItem, _ | .push, _ | .remove, _ =>
    let vs ← w.evalAll args
    make fun h => ((), store k vs h)
    pure .normal
  | .ifThen, args =>
    match ifParts args with
    | none => fail (.malformed k span)
    | some (cond, a, b) =>
      if ← w.test cond then w.block a
      else match b with
        | some b => w.block b
        | none => pure .normal
  | .whileLoop, cond :: body => w.whileLoop cond body fuel
  | .forEach, var :: list :: body =>
    let name ← checked (c.variableOf var)
    match ← w.eval list with
    | some (.list r) => w.forLoop name r body fuel 0
    | _ => pure .normal
  | .whileLoop, _ | .forEach, _ => fail (.malformed k span)
  | .ret, [] => pure (.returned none)
  | .ret, [e] =>
    let v ← w.eval e
    pure (.returned v)
  | k, _ => fail (.notAStatement k span)

def runForm (c : Code) (w : Walk) (fuel : Nat) (children : List Node) (span : Span) : Eval Flow :=
  match children with
  | [] => pure .normal
  | .branch _ s _ :: _ => fail (.notCallable s)
  | .leaf head :: args =>
    match head.kind with
    | .keyword k => c.runKeyword w fuel k args span
    | .identifier => do
      let _ ← c.callHead w head args span
      pure .normal
    | _ => fail (.notCallable head.span)

def runBlock (c : Code) (w : Walk) (fuel : Nat) : Node → Eval Flow
  | .leaf l => fail (statementLeaf l)
  | .branch (.branch cs s tag :: rest) _ _ => w.sequence (.branch cs s tag :: rest)
  | .branch children span _ => c.runForm w fuel children span

/-! ## Runs -/

mutual

def eval (c : Code) : Nat → Node → Eval (Option Value)
  | 0, _ => exhausted
  | fuel + 1, n => c.evalNode ⟨c.eval fuel, c.block fuel⟩ n

def block (c : Code) : Nat → Node → Eval Flow
  | 0, _ => exhausted
  | fuel + 1, n => c.runBlock ⟨c.eval fuel, c.block fuel⟩ fuel n

end

def walk (c : Code) (fuel : Nat) : Walk := ⟨c.eval fuel, c.block fuel⟩

end Code

/-- Runs the function `main` of a tree. String literals get their cells first. -/
def run (root : Node) (limit : Option Nat) (sink : Sink) (fuel : Nat) :
    EStateM.Result Stop State (Option Value) :=
  let (root, heap) := loadNode {} root
  let c : Code := ⟨root, limit⟩
  match c.procedure? mainName with
  | some f => c.call (c.walk fuel) f mainName [] f.span { heap := heap, sink := sink }
  | none => fail (.unresolved mainName default) { heap := heap, sink := sink }

end Lisplet.Named
