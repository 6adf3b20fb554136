import Lisplet.Keyword
import Lisplet.Span

/-!
# Runtime errors

What stops a running program. Operands of the wrong kind are not among them:
operations answer those with an absent value.
-/

namespace Lisplet

inductive RuntimeError
  | malformed (keyword : Keyword) (span : Span)
  | arity (keyword : Keyword) (expected : Arity) (found : Nat) (span : Span)
  | notAnExpression (keyword : Keyword) (span : Span)
  | notAStatement (keyword : Keyword) (span : Span)
  | keywordInLeaf (keyword : Keyword) (span : Span)
  | expectedStatement (span : Span)
  | emptyForm (span : Span)
  | notCallable (span : Span)
  | expectedVariable (span : Span)
  | functionAsValue (name : String) (span : Span)
  | notAFunction (name : String) (span : Span)
  | unresolved (name : String) (span : Span)
  | argumentCount (name : String) (expected found : Nat) (span : Span)
  | callDepthExceeded (limit : Nat) (span : Span)
  | output (reason : String) (span : Span)
deriving DecidableEq, Repr

namespace RuntimeError

def message : RuntimeError → String
  | malformed k _ => "malformed " ++ k.spelling
  | arity k expected found _ =>
    "'" ++ k.spelling ++ "' takes " ++ expected.describe ++ " operand(s), " ++
      toString found ++ " given"
  | notAnExpression k _ => "'" ++ k.spelling ++ "' does not produce a value"
  | notAStatement k _ => "'" ++ k.spelling ++ "' cannot be used as a statement"
  | keywordInLeaf k _ => "unexpected keyword '" ++ k.spelling ++ "'"
  | expectedStatement _ => "expected statement"
  | emptyForm _ => "empty form"
  | notCallable _ => "expected keyword or function name"
  | expectedVariable _ => "expected variable"
  | functionAsValue name _ => "function '" ++ name ++ "' used as a value"
  | notAFunction name _ => "'" ++ name ++ "' is not a function"
  | unresolved name _ => "unresolved identifier '" ++ name ++ "'"
  | argumentCount name expected found _ =>
    "function '" ++ name ++ "' takes " ++ toString expected ++ " argument(s), " ++
      toString found ++ " given"
  | callDepthExceeded limit _ => "call depth limit of " ++ toString limit ++ " exceeded"
  | output reason _ => "output failed: " ++ reason

def span : RuntimeError → Span
  | malformed _ s | arity _ _ _ s | notAnExpression _ s | notAStatement _ s => s
  | keywordInLeaf _ s | expectedStatement s | emptyForm s | notCallable s => s
  | expectedVariable s | functionAsValue _ s | notAFunction _ s | unresolved _ s => s
  | argumentCount _ _ _ s | callDepthExceeded _ s | output _ s => s

end RuntimeError

end Lisplet
