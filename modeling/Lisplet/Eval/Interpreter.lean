import Lisplet.Eval.Load
import Lisplet.Eval.Step

/-!
# The interpreter

The steps down the tree, tied together. Fuel bounds how deep evaluation goes and
how often a loop repeats; a run that ends does so with the same result for any
fuel that is enough.
-/

namespace Lisplet

namespace Code

mutual

def eval (c : Code) : Nat → Node → Eval (Option Value)
  | 0, _ => .exhausted
  | fuel + 1, n => c.evalNode ⟨c.eval fuel, c.block fuel⟩ n

def block (c : Code) : Nat → Node → Eval Flow
  | 0, _ => .exhausted
  | fuel + 1, n => c.runBlock ⟨c.eval fuel, c.block fuel⟩ fuel n

end

def walk (c : Code) (fuel : Nat) : Walk := ⟨c.eval fuel, c.block fuel⟩

def exec (c : Code) (fuel : Nat) (children : List Node) (span : Span) : Eval Flow :=
  c.runForm (c.walk fuel) fuel children span

def run (c : Code) (fuel : Nat) : Eval (Option Value) := fun m =>
  let span := match c.program.function? 0 with
    | some f => f.span
    | none => default
  ((c.call (c.walk fuel) 0 [] span).thenClose fun m => m.note (.mainFinished m.stack.size))
    (m.note .mainStarted)

end Code

structure Interpreter where
  code : Code
  machine : Machine

namespace Interpreter

def start (p : Program) (limit : Option Nat) (sink : Sink) (log : Log) : Interpreter :=
  let (p, heap) := p.load
  ⟨⟨p, limit⟩, { heap := heap, sink := sink, log := log }⟩

end Interpreter

end Lisplet
