import Lisplet.Span

/-!
# Tokens

A source text is made of parentheses, string literals and atoms. Whether an atom
is a number, a keyword or a name is decided later, when it becomes a leaf.
-/

namespace Lisplet

inductive TokenKind
  | opening
  | closing
  | str
  | atom
  | finish
deriving DecidableEq, Repr, Inhabited

def TokenKind.describe : TokenKind → String
  | .opening => "'('"
  | .closing => "')'"
  | .str => "string literal"
  | .atom => "atom"
  | .finish => "end of input"

/-- A piece of source text. The end of input is a token without text. -/
structure Token where
  kind : TokenKind
  text : String
  span : Span
deriving DecidableEq, Repr, Inhabited

namespace Token

def finish (p : Position) : Token := ⟨.finish, "", .point p⟩

def render (t : Token) : String :=
  if t.kind = .finish then t.kind.describe else t.text

def sameText (a b : Token) : Bool := a.text == b.text

end Token

/-! ## Cut sources -/

inductive CutKind
  | unterminated
  | trailingEscape
deriving DecidableEq, Repr

/-- A string literal that runs off the end of the source, with the span of its
opening quote. The token stream ends there. -/
structure Cut where
  kind : CutKind
  quote : Span
deriving DecidableEq, Repr

def CutKind.describe : CutKind → String
  | .unterminated => "unterminated string literal"
  | .trailingEscape => "escape at end of input"

def Cut.message (c : Cut) : String := c.kind.describe ++ ", input truncated"

end Lisplet
