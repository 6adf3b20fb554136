import Lisplet.Span

/-!
# Faults of definitions

What can be wrong with the definitions of a program, and where.
-/

namespace Lisplet

inductive Fault
  | malformedDefun (span : Span)
  | expectedPrototype (span : Span)
  | expectedFunctionName (span : Span)
  | expectedParameter (span : Span)
  | parameterShadowsFunction (name : String) (span : Span)
  | duplicateParameter (name : String) (span : Span)
  | duplicateMain (span : Span)
  | duplicateFunction (name : String) (span : Span)
  | missingMain (span : Span)
deriving DecidableEq, Repr

namespace Fault

def message : Fault → String
  | malformedDefun _ => "malformed defun"
  | expectedPrototype _ => "expected prototype"
  | expectedFunctionName _ => "expected function name"
  | expectedParameter _ => "expected parameter name"
  | parameterShadowsFunction name _ => "parameter '" ++ name ++ "' shadows a function"
  | duplicateParameter name _ => "duplicate parameter '" ++ name ++ "'"
  | duplicateMain _ => "redeclaration of main function"
  | duplicateFunction name _ => "redeclaration of function '" ++ name ++ "'"
  | missingMain _ => "no main function declared"

def span : Fault → Span
  | malformedDefun s | expectedPrototype s | expectedFunctionName s | expectedParameter s => s
  | parameterShadowsFunction _ s | duplicateParameter _ s => s
  | duplicateMain s | duplicateFunction _ s | missingMain s => s

end Fault

end Lisplet
