import Lisplet.Token

/-!
# Splitting a source into tokens

`Lexer.next` skips blanks and comments and takes one token off the rest of the
source. At the end of the source it answers with the end of input, again and
again. `scan` collects all tokens.
-/

namespace Lisplet

def isLayout (c : Char) : Bool :=
  c == ' ' || c == '\t' || c == '\n' || c == '\r'

def isDelimiter (c : Char) : Bool :=
  isLayout c || c == '"' || c == ';' || c == '(' || c == ')'

/-- Drops blanks and comments, keeping track of the position. A comment runs
from `;` through the next line feed; `comment` tells whether one is open. -/
def skipTrivia (comment : Bool) : List Char → Position → List Char × Position
  | [], p => ([], p)
  | c :: cs, p =>
    if comment then skipTrivia (c != '\n') cs (p.advance c)
    else if isLayout c then skipTrivia false cs (p.advance c)
    else if c = ';' then skipTrivia true cs (p.advance c)
    else (c :: cs, p)

/-- The length of a string literal of which `n` characters are behind: up to
and including the next quote that no backslash precedes. -/
def literalLength : List Char → Nat → Except CutKind Nat
  | [], _ => .error .unterminated
  | '"' :: _, n => .ok (n + 1)
  | ['\\'], _ => .error .trailingEscape
  | '\\' :: _ :: cs, n => literalLength cs (n + 2)
  | _ :: cs, n => literalLength cs (n + 1)

def lexeme (c : Char) (cs : List Char) : Except CutKind (TokenKind × Nat) :=
  if c = '(' then .ok (.opening, 1)
  else if c = ')' then .ok (.closing, 1)
  else if c = '"' then (literalLength cs 1).map fun n => (.str, n)
  else .ok (.atom, 1 + (cs.takeWhile fun c => !isDelimiter c).length)

structure Lexer where
  rest : List Char
  position : Position
  cut : Option Cut

namespace Lexer

def start (source : List Char) : Lexer := ⟨source, .origin, none⟩

/-- Takes one token. A literal without an end takes everything with it. -/
def next (lx : Lexer) : Token × Lexer :=
  match skipTrivia false lx.rest lx.position with
  | ([], p) => (.finish p, { lx with rest := [], position := p })
  | (c :: cs, p) =>
    match lexeme c cs with
    | .ok (kind, n) =>
      let text := (c :: cs).take n
      let stop := p.advanceAll text
      (⟨kind, String.ofList text, ⟨p, stop⟩⟩, { lx with rest := (c :: cs).drop n, position := stop })
    | .error kind =>
      let stop := p.advanceAll (c :: cs)
      (.finish stop, ⟨[], stop, some ⟨kind, ⟨p, p.advance c⟩⟩⟩)

/-! ## Every token shortens the rest -/

theorem length_skipTrivia_le (comment : Bool) (cs : List Char) (p : Position) :
    (skipTrivia comment cs p).1.length ≤ cs.length := by
  fun_induction skipTrivia comment cs p <;> simp_all <;> omega

theorem lexeme_pos {c : Char} {cs : List Char} {kind : TokenKind} {n : Nat}
    (h : lexeme c cs = .ok (kind, n)) : 0 < n := by
  unfold lexeme at h
  split at h
  · cases h; decide
  split at h
  · cases h; decide
  split at h
  · have pos : ∀ (l : List Char) (k m : Nat), literalLength l k = .ok m → k < m := by
      intro l k
      fun_induction literalLength l k <;> intro m hm <;> grind
    cases hl : literalLength cs 1 with
    | error e => simp [hl, Except.map] at h
    | ok m =>
      simp only [hl, Except.map, Except.ok.injEq, Prod.mk.injEq] at h
      have := pos _ _ _ hl
      omega
  · cases h; omega

theorem length_next_lt (lx : Lexer) (h : (next lx).1.kind ≠ .finish) :
    (next lx).2.rest.length < lx.rest.length := by
  unfold next at h ⊢
  have le := length_skipTrivia_le false lx.rest lx.position
  split at h
  · simp [Token.finish] at h
  · rename_i c cs p hs
    rw [hs] at le
    split at h
    · rename_i kind n hl
      have := lexeme_pos hl
      simp only [List.length_drop, List.length_cons] at le ⊢
      omega
    · simp [Token.finish] at h

end Lexer

/-! ## All tokens -/

structure Scan where
  tokens : List Token
  finish : Token
  cut : Option Cut

/-- The tokens from `lx` on, after those in `acc` (last one first). -/
def Lexer.collect (lx : Lexer) (acc : List Token) : Scan :=
  match _hn : lx.next with
  | (token, rest) =>
    if _hk : token.kind = .finish then ⟨acc.reverse, token, rest.cut⟩
    else rest.collect (token :: acc)
termination_by lx.rest.length
decreasing_by
  have shorter := Lexer.length_next_lt lx
  rw [_hn] at shorter
  exact shorter _hk

def scan (source : List Char) : Scan :=
  (Lexer.start source).collect []

end Lisplet
