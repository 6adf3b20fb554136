/-!
# Reserved words

Every built-in operation and statement is spelled with a keyword, and an atom
with a keyword's spelling is never a name. A keyword has a position in the
table `Keyword.all` and, unless it is a control form, a number of operands.
-/

namespace Lisplet

inductive Keyword
  | defun | set | ifThen | otherwise | whileLoop | print
  | add | sub | mul | div | mod | eq | lt | gt | not | and | or
  | list | table | item | len | setItem | index | push | remove
  | bool | int | float | str | ret | forEach | typeOf | ternary
deriving DecidableEq, Repr, Inhabited

namespace Keyword

def all : List Keyword :=
  [defun, set, ifThen, otherwise, whileLoop, print,
   add, sub, mul, div, mod, eq, lt, gt, not, and, or,
   list, table, item, len, setItem, index, push, remove,
   bool, int, float, str, ret, forEach, typeOf, ternary]

def spelling : Keyword → String
  | defun => "defun"
  | set => "set"
  | ifThen => "if"
  | otherwise => "else"
  | whileLoop => "while"
  | print => "print"
  | add => "+"
  | sub => "-"
  | mul => "*"
  | div => "/"
  | mod => "%"
  | eq => "="
  | lt => "<"
  | gt => ">"
  | not => "!"
  | and => "&"
  | or => "|"
  | list => "list"
  | table => "table"
  | item => "item"
  | len => "len"
  | setItem => "setitem"
  | index => "index"
  | push => "push"
  | remove => "remove"
  | bool => "bool"
  | int => "int"
  | float => "float"
  | str => "str"
  | ret => "return"
  | forEach => "for"
  | typeOf => "type"
  | ternary => "ternary"

def ofSpelling? (text : String) : Option Keyword :=
  all.find? fun k => k.spelling == text

def position (k : Keyword) : Nat := all.idxOf k

end Keyword

/-! ## Operand counts -/

inductive Arity
  | exact (count : Nat)
  | range (least most : Nat)
  | even
  | any
deriving DecidableEq, Repr

namespace Arity

def accepts : Arity → Nat → Bool
  | exact n, count => count == n
  | range least most, count => least ≤ count && count ≤ most
  | even, count => count % 2 == 0
  | any, _ => true

def describe : Arity → String
  | exact 0 => "0"
  | exact 1 => "1"
  | exact 2 => "2"
  | exact 3 => "3"
  | exact _ => "a fixed number of"
  | range 0 1 => "0 or 1"
  | range 1 2 => "1 or 2"
  | range _ _ => "a bounded number of"
  | even => "an even number of"
  | any => "any number of"

end Arity

/-- How many operands a keyword takes. Control forms check their shape
themselves. -/
def Keyword.arity? : Keyword → Option Arity
  | add | mul | div | mod | eq | lt | gt | and | or => some (.exact 2)
  | item | index | push | remove | set => some (.exact 2)
  | sub => some (.range 1 2)
  | not | len | bool | int | float | str | typeOf | print => some (.exact 1)
  | setItem | ternary => some (.exact 3)
  | ret => some (.range 0 1)
  | list => some .any
  | table => some .even
  | defun | ifThen | otherwise | whileLoop | forEach => none

end Lisplet
