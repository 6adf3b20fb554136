/-!
# Quoted text

A string literal stands between double quotes. Inside, a backslash makes the
next character part of the text; `\n` and `\t` stand for a line feed and a tab.
-/

namespace Lisplet.Quoted

def escaped : Char → Char
  | 'n' => '\n'
  | 't' => '\t'
  | c => c

/-- The text of a literal's body. A backslash at the very end stands for nothing. -/
def decodeBody (acc : List Char) : List Char → List Char
  | [] => acc.reverse
  | ['\\'] => acc.reverse
  | '\\' :: c :: cs => decodeBody (escaped c :: acc) cs
  | c :: cs => decodeBody (c :: acc) cs

def body? : List Char → Option (List Char)
  | '"' :: cs =>
    match cs.getLast? with
    | some '"' => some cs.dropLast
    | _ => none
  | _ => none

def decode (literal : List Char) : List Char :=
  decodeBody [] ((body? literal).getD literal)

def encodeChar : Char → List Char
  | '\n' => ['\\', 'n']
  | '\t' => ['\\', 't']
  | '\\' => ['\\', '\\']
  | '"' => ['\\', '"']
  | c => [c]

def encode (cs : List Char) : List Char :=
  '"' :: cs.flatMap encodeChar ++ ['"']

end Lisplet.Quoted
