import Lisplet.Span

/-!
# Diagnostics

A failure is reported on one line: how severe it is, what happened and where. A
warning looks the same and does not stop the program.
-/

namespace Lisplet

inductive Severity
  | error
  | warning
deriving DecidableEq, Repr

namespace Severity

def name : Severity → String
  | error => "error"
  | warning => "warning"

def color : Severity → String
  | error => "\x1b[31m"
  | warning => "\x1b[33m"

def render (s : Severity) (colors : Bool) : String :=
  if colors then s.color ++ s.name ++ "\x1b[0m" else s.name

end Severity

structure Diagnostic where
  severity : Severity
  message : String
  span : Span
deriving DecidableEq, Repr

namespace Diagnostic

def render (d : Diagnostic) (colors : Bool) : String :=
  d.severity.render colors ++ ": " ++ d.message ++ " at " ++ d.span.render

def line (d : Diagnostic) (colors : Bool) : String :=
  d.render colors ++ "\n"

end Diagnostic

end Lisplet
