import Lisplet.Command.FileTree
import Lisplet.Command.Options
import Lisplet.Command.SelfCheck
import Lisplet.Diagnostic
import Lisplet.Program.Narration
import Lisplet.Session

/-!
# The command

What the command answers to its arguments, the log variable of its environment
and the bytes of its source: an exit status, what it prints, and what it reports.
Status 0 is success, 1 a failed program, and 2 a source or command line that
cannot be used. A program runs with a given amount of fuel, and reports are in
colour on request.
-/

namespace Lisplet

structure Response where
  exit : Nat
  output : ByteArray := .empty
  report : String := ""

namespace Refusal

def usage : String := "Usage: tessel [OPTIONS] [FILE]\n"

def message : Refusal → String
  | unexpected a => "unexpected argument '" ++ a ++ "' found"
  | repeated o => "the argument '" ++ o ++ "' cannot be used multiple times"
  | missingValue o => "a value is required for '" ++ o ++ "' but none was supplied"
  | invalidValue o v => "invalid value '" ++ v ++ "' for '" ++ o ++ "'"
  | help | version => ""

def respond : Refusal → Response
  | help => ⟨0, usage.toUTF8, ""⟩
  | version => ⟨0, "tessel 0.1.0\n".toUTF8, ""⟩
  | r => ⟨2, .empty, "error: " ++ r.message ++ "\n\n" ++ usage⟩

end Refusal

/-- The log at the start of a run: its level comes from the environment, and
from the options if they name one. -/
def Options.log (o : Options) (setting : Option String) : Log :=
  let log : Log := match setting with
    | none => {}
    | some text =>
      match Level.ofName? text with
      | some level => { level := level }
      | none => ({} : Log).add (.levelRefused text)
  match o.logLevel with
  | some level => { log with level := level }
  | none => log

def runChecks (log : Log) : List SelfCheck → Log × String
  | [] => (log, "")
  | c :: cs =>
    if c.passes then runChecks (log.add (.checkPassed c.name)) cs
    else
      let (log, report) := runChecks log cs
      (log, "self check failed: " ++ c.name ++ "\n" ++ report)

def respondChecks (log : Log) (colors : Bool) : Response :=
  let (log, report) := runChecks log selfChecks
  let passed := selfChecks.countP SelfCheck.passes
  let log := log.add (.checksDone passed selfChecks.length)
  ⟨if passed = selfChecks.length then 0 else 1, .empty, report ++ log.render colors⟩

def respondFailure (output : ByteArray) (report message : String) (span : Span) (colors : Bool) :
    Response :=
  ⟨1, output, report ++ Diagnostic.line ⟨.error, message, span⟩ colors⟩

def Options.respondProgram (o : Options) (p : Program) (report : String) (log : Log) (fuel : Nat)
    (colors : Bool) : Response :=
  if o.dumpTree then ⟨0, (p.dump ++ "\n").toUTF8, report ++ log.render colors⟩
  else
    let (outcome, m) := p.execute o.maxDepth {} log fuel
    let report := report ++ m.log.render colors
    match outcome with
    | .finished => ⟨0, m.sink.bytes, report⟩
    | .failed f => respondFailure m.sink.bytes report f.message f.span colors
    | .exhausted => ⟨1, m.sink.bytes, report⟩

/-- Reads and resolves a source of `bytes` bytes, and goes on with the program.
A cut source is reported as soon as its tree is read. -/
def Options.respondText (o : Options) (source : List Char) (bytes : Nat) (log : Log) (fuel : Nat)
    (colors : Bool) : Response :=
  let scan := scan source
  let report := (log.addAll (scan.narrate bytes)).render colors
  match scan.read with
  | .error e => respondFailure .empty report e.message e.span colors
  | .ok reading =>
    let warning := match reading.cut with
      | some cut => Diagnostic.line ⟨.warning, cut.message, cut.quote⟩ colors
      | none => ""
    let report := report ++ warning
    let log : Log := ({ level := log.level } : Log).addAll (narrateResolve reading.root)
    match resolve reading.root with
    | .error f => respondFailure .empty (report ++ log.render colors) f.message f.span colors
    | .ok p => o.respondProgram p report (log.add (.programResolved p.functions.length)) fuel colors

def Options.needsSource (o : Options) : Bool := !o.test

def Options.respond (o : Options) (setting : Option String) (source : Except AccessError ByteArray)
    (fuel : Nat := plenty) (colors : Bool := false) : Response :=
  let log := o.log setting
  if o.test then respondChecks log colors
  else
    match source with
    | .error e =>
      ⟨2, .empty, log.render colors ++ "tessel: cannot read " ++ o.file.getD "<stdin>" ++ ": " ++
        e.message ++ "\n"⟩
    | .ok bytes =>
      match decodeSource bytes with
      | .error e => respondFailure .empty (log.render colors) e.message e.span colors
      | .ok text => o.respondText text bytes.size log fuel colors

/-- The response to a command line. `read` gets the bytes of a file, or those of
standard input if no file is named, and is left alone if no source is needed. -/
def command [Monad m] (arguments : List String) (setting : Option String)
    (read : Option String → m (Except AccessError ByteArray)) (fuel : Nat) (colors : Bool) :
    m Response :=
  match Options.ofArguments arguments with
  | .error refusal => pure refusal.respond
  | .ok o => do
    let source ← if o.needsSource then read o.file else pure (.ok .empty)
    pure (o.respond setting source fuel colors)

end Lisplet
