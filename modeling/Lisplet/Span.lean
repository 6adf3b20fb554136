/-!
# Positions and spans

A position names a place in a source text by its byte offset, its line and its
column. Lines and columns count from one, and columns count characters. A span
is the stretch between two positions.
-/

namespace Lisplet

structure Position where
  offset : Nat
  line : Nat
  column : Nat
deriving DecidableEq, Repr, Inhabited

namespace Position

def origin : Position := ⟨0, 1, 1⟩

/-- The position behind the character `c`: a line feed starts a new line, every
other character takes one column. -/
def advance (p : Position) (c : Char) : Position :=
  if c = '\n' then ⟨p.offset + 1, p.line + 1, 1⟩
  else ⟨p.offset + c.utf8Size, p.line, p.column + 1⟩

def advanceAll (p : Position) (cs : List Char) : Position :=
  cs.foldl advance p

def render (p : Position) : String :=
  toString p.line ++ ":" ++ toString p.column

end Position

structure Span where
  start : Position
  stop : Position
deriving DecidableEq, Repr, Inhabited

namespace Span

def point (p : Position) : Span := ⟨p, p⟩

def merge (a b : Span) : Span := ⟨a.start, b.stop⟩

def size (s : Span) : Nat := s.stop.offset - s.start.offset

def isEmpty (s : Span) : Bool := s.start.offset == s.stop.offset

def render (s : Span) : String := s.start.render

/-- Drops exactly `n` bytes of `cs`, if they end at a character boundary. -/
def dropBytes : Nat → List Char → Option (List Char)
  | 0, cs => some cs
  | _ + 1, [] => none
  | n + 1, c :: cs => if c.utf8Size ≤ n + 1 then dropBytes (n + 1 - c.utf8Size) cs else none

def takeBytes (n : Nat) (cs : List Char) : Option (List Char) :=
  (dropBytes n cs).map fun rest => cs.take (cs.length - rest.length)

def slice (s : Span) (source : List Char) : Option (List Char) :=
  if s.start.offset ≤ s.stop.offset then
    (dropBytes s.start.offset source).bind (takeBytes s.size)
  else none

end Span

end Lisplet
