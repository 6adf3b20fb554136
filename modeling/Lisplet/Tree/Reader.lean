import Lisplet.Text.Utf8
import Lisplet.Token.Lexer
import Lisplet.Tree

/-!
# Reading a tree

Tokens become a tree without recursion: the forms that are still open wait on a
stack, an opening parenthesis puts one there, and a closing one completes the
innermost and adds it to the form around it.
-/

namespace Lisplet

inductive ReadError
  | invalidUtf8 (span : Span)
  | unmatchedClose (span : Span)
  | unclosedOpen (span : Span)
deriving DecidableEq, Repr

namespace ReadError

def message : ReadError → String
  | invalidUtf8 _ => "source is not valid UTF-8"
  | unmatchedClose _ => "unmatched ')'"
  | unclosedOpen _ => "unclosed '(' at end of input"

def span : ReadError → Span
  | invalidUtf8 s | unmatchedClose s | unclosedOpen s => s

end ReadError

def decodeSource (bytes : ByteArray) : Except ReadError (List Char) :=
  (Utf8.decode bytes).mapError fun p => .invalidUtf8 (.point p)

/-- A form whose closing parenthesis is still to come: what stands before it in
the form around it, last node first, and its opening parenthesis. -/
structure OpenForm where
  before : List Node
  opening : Span

/-- Reads on, with the nodes of the innermost open form (last one first) and the
forms that are open. -/
def readFrom : List Token → List Node → List OpenForm → Except ReadError (List Node)
  | [], nodes, [] => .ok nodes.reverse
  | [], _, form :: _ => .error (.unclosedOpen form.opening)
  | t :: ts, nodes, forms =>
    match t.kind with
    | .opening => readFrom ts [] (⟨nodes, t.span⟩ :: forms)
    | .closing =>
      match forms with
      | [] => .error (.unmatchedClose t.span)
      | form :: forms =>
        readFrom ts (.branch nodes.reverse (form.opening.merge t.span) none :: form.before) forms
    | _ => readFrom ts (.leaf (.ofToken t) :: nodes) forms

structure Reading where
  root : Node
  cut : Option Cut

def Scan.read (s : Scan) : Except ReadError Reading :=
  (readFrom s.tokens [] []).map fun nodes =>
    ⟨.branch nodes (Span.merge (.point .origin) s.finish.span) none, s.cut⟩

def readTree (source : List Char) : Except ReadError Reading :=
  (scan source).read

end Lisplet
