import Lisplet.Eval.Interpreter
import Lisplet.Program.Resolve
import Lisplet.Tree.Reader

/-!
# Running a source

A source is read, resolved and run. Each stage can fail in its own way.
-/

namespace Lisplet

inductive Failure
  | read (error : ReadError)
  | resolve (fault : Fault)
  | run (error : RuntimeError)

namespace Failure

def message : Failure → String
  | read e => e.message
  | resolve f => f.message
  | run e => e.message

def span : Failure → Span
  | read e => e.span
  | resolve f => f.span
  | run e => e.span

end Failure

inductive Outcome
  | finished
  | failed (failure : Failure)
  | exhausted

/-- More fuel than any run that anybody waits for needs. -/
def plenty : Nat := Nat.pow 10 15

def Program.execute (p : Program) (limit : Option Nat) (sink : Sink) (log : Log) (fuel : Nat) :
    Outcome × Machine :=
  let i := Interpreter.start p limit sink log
  match i.code.run fuel i.machine with
  | .ok v m => (.finished, m.release v)
  | .error (.error e) m => (.failed (.run e), m)
  | .error .exhausted m => (.exhausted, m)

def runSource (source : List Char) (limit : Option Nat) (sink : Sink) (fuel : Nat) :
    Outcome × Sink :=
  match readTree source with
  | .error e => (.failed (.read e), sink)
  | .ok reading =>
    match resolve reading.root with
    | .error f => (.failed (.resolve f), sink)
    | .ok p =>
      let (outcome, m) := p.execute limit sink {} fuel
      (outcome, m.sink)

end Lisplet
