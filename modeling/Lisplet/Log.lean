import Lisplet.Token
import Lisplet.Text.Blank
import Lisplet.Tree

/-!
# Log

Every stage can tell what it does. What it tells is an `Event`; an event has a
level, and a log keeps the events that its own level lets through. A log line
names the level, in its colour on request, and the part of the program that speaks.
-/

namespace Lisplet

inductive Level
  | error
  | warn
  | info
  | debug
  | trace
deriving DecidableEq, Repr, Inhabited

namespace Level

def all : List Level := [error, warn, info, debug, trace]

def rank : Level → Nat
  | error => 0
  | warn => 1
  | info => 2
  | debug => 3
  | trace => 4

def name : Level → String
  | error => "ERROR"
  | warn => "WARN"
  | info => "INFO"
  | debug => "DEBUG"
  | trace => "TRACE"

def color : Level → String
  | error => "\x1b[31m"
  | warn => "\x1b[33m"
  | info => "\x1b[32m"
  | debug => "\x1b[36m"
  | trace => "\x1b[35m"

def render (l : Level) (colors : Bool) : String :=
  let label := "[" ++ l.name ++ "]"
  if colors then l.color ++ label ++ "\x1b[0m" else label

def shows (level event : Level) : Bool := event.rank ≤ level.rank

def ofName? (text : String) : Option Level :=
  let name := String.ofList ((Text.trim text.toList).map Char.toUpper)
  if name = "WARNING" then some warn else all.find? fun l => l.name == name

def refusal (text : String) : String := "invalid log level: " ++ text

end Level

inductive Event
  | levelRefused (text : String)
  | cutSource (cut : Cut)
  | formOpened (span : Span)
  | treeRead (forms bytes : Nat)
  | paramBound (name : String) (slot : Nat)
  | nameBound (name : String) (span : Span) (binding : Binding)
  | functionBound (index : Nat) (name : String) (arity locals : Nat)
  | programResolved (functions : Nat)
  | mainStarted
  | called (name : String) (arguments : Nat)
  | frameEntered (base locals depth : Nat)
  | frameLeft (base depth : Nat)
  | mainFinished (slots : Nat)
  | checkPassed (name : String)
  | checksDone (passed total : Nat)

namespace Event

def level : Event → Level
  | levelRefused _ => .warn
  | checksDone _ _ => .info
  | cutSource _ | treeRead _ _ | functionBound _ _ _ _ | programResolved _ => .debug
  | mainStarted | mainFinished _ | checkPassed _ => .debug
  | formOpened _ | paramBound _ _ | nameBound _ _ _ => .trace
  | called _ _ | frameEntered _ _ _ | frameLeft _ _ => .trace

def target : Event → String
  | levelRefused _ => "tessel_log"
  | cutSource _ => "tessel_syntax::lexer"
  | formOpened _ | treeRead _ _ => "tessel_syntax::parser"
  | paramBound _ _ | nameBound _ _ _ | functionBound _ _ _ _ => "tessel_interpreter::resolve"
  | programResolved _ => "tessel"
  | mainStarted | called _ _ | mainFinished _ => "tessel_interpreter::eval"
  | frameEntered _ _ _ | frameLeft _ _ => "tessel_interpreter::stack"
  | checkPassed _ | checksDone _ _ => "tessel::selftest"

def showBinding : Binding → String
  | .function i => "Function(" ++ toString i ++ ")"
  | .slot i => "Local(" ++ toString i ++ ")"

def message : Event → String
  | levelRefused text => "ignoring TESSEL_LOG: " ++ Level.refusal text
  | cutSource cut => cut.kind.describe ++ " at " ++ cut.quote.render
  | formOpened span => "open form at " ++ span.render
  | treeRead forms bytes =>
    "parsed " ++ toString forms ++ " top-level forms from " ++ toString bytes ++ " bytes"
  | paramBound name slot => "param '" ++ name ++ "' -> slot " ++ toString slot
  | nameBound name span b => "'" ++ name ++ "' at " ++ span.render ++ " -> " ++ showBinding b
  | functionBound index name arity locals =>
    "function " ++ toString index ++ " '" ++ name ++ "': arity " ++ toString arity ++
      " locals " ++ toString locals
  | programResolved n => "resolved " ++ toString n ++ " function(s)"
  | mainStarted => "running main"
  | called name n => "call '" ++ name ++ "' with " ++ toString n ++ " argument(s)"
  | frameEntered base locals depth =>
    "enter frame: base " ++ toString base ++ " locals " ++ toString locals ++
      " depth " ++ toString depth
  | frameLeft base depth => "leave frame: base " ++ toString base ++ " depth " ++ toString depth
  | mainFinished n => "main finished, " ++ toString n ++ " slots live"
  | checkPassed name => "self check passed: " ++ name
  | checksDone passed total =>
    toString passed ++ " of " ++ toString total ++ " self checks passed"

def line (e : Event) (colors : Bool) : String :=
  e.level.render colors ++ " " ++ e.target ++ ": " ++ e.message ++ "\n"

end Event

structure Log where
  level : Level := .warn
  events : Array Event := #[]

namespace Log

def add (log : Log) (e : Event) : Log :=
  if log.level.shows e.level then { log with events := log.events.push e } else log

def addAll (log : Log) (es : List Event) : Log :=
  es.foldl add log

def render (log : Log) (colors : Bool) : String :=
  log.events.foldl (fun text e => text ++ e.line colors) ""

end Log

end Lisplet
