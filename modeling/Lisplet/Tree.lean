import Lisplet.Keyword
import Lisplet.Number.Decimal
import Lisplet.Text.Quoted
import Lisplet.Token

/-!
# Trees

A program text is a tree. A parenthesised form is a branch, an atom or a string
literal is a leaf, and the whole text is a branch around its top-level nodes. A
leaf is classified once, when it is made.
-/

namespace Lisplet

inductive LeafKind
  | str (text : String)
  | bool (value : Bool)
  | null
  | int (value : Int64)
  | float (value : Float)
  | keyword (word : Keyword)
  | identifier

def LeafKind.ofAtom (text : String) : LeafKind :=
  if text = "true" then .bool true
  else if text = "false" then .bool false
  else if text = "null" then .null
  else match Number.readInt text.toList with
    | some n => .int n
    | none => match Number.readFloat text.toList with
      | some x => .float x
      | none => match Keyword.ofSpelling? text with
        | some k => .keyword k
        | none => .identifier

def LeafKind.ofToken (t : Token) : LeafKind :=
  if t.kind = .str then .str (String.ofList (Quoted.decode t.text.toList))
  else .ofAtom t.text

/-- What a name refers to: a function of the program, or a slot of the frame of
the call that is running. -/
inductive Binding
  | function (index : Nat)
  | slot (index : Nat)
deriving DecidableEq, Repr

def Binding.index : Binding → Nat
  | .function i => i
  | .slot i => i

/-- A leaf. Resolution sets `binding` on names; loading a program sets `cell` on
string literals, to the heap cell that holds their text. -/
structure Leaf where
  token : Token
  kind : LeafKind
  binding : Option Binding := none
  cell : Option Nat := none

namespace Leaf

def ofToken (t : Token) : Leaf := { token := t, kind := .ofToken t }

def text (l : Leaf) : String := l.token.text

def span (l : Leaf) : Span := l.token.span

def keyword? (l : Leaf) : Option Keyword :=
  match l.kind with
  | .keyword k => some k
  | _ => none

def name? (l : Leaf) : Option String :=
  match l.kind with
  | .identifier => some l.text
  | _ => none

end Leaf

/-- A node of a tree. Resolution tags a function's prototype with its index and
its definition with its number of slots. -/
inductive Node
  | leaf (leaf : Leaf)
  | branch (children : List Node) (span : Span) (tag : Option Nat)

namespace Node

def span : Node → Span
  | leaf l => l.span
  | branch _ s _ => s

def children : Node → List Node
  | leaf _ => []
  | branch cs _ _ => cs

def keyword? : Node → Option Keyword
  | leaf l => l.keyword?
  | branch _ _ _ => none

def headKeyword? (n : Node) : Option Keyword :=
  n.children.head?.bind keyword?

def operands (n : Node) : List Node := n.children.tail

/-! ## Measures and traversals -/

mutual

def size : Node → Nat
  | leaf _ => 1
  | branch cs _ _ => sizeAll cs + 1

def sizeAll : List Node → Nat
  | [] => 0
  | n :: ns => n.size + sizeAll ns

end

mutual

def depth : Node → Nat
  | leaf _ => 0
  | branch cs _ _ => depthAll cs

def depthAll : List Node → Nat
  | [] => 0
  | leaf _ :: ns => depthAll ns
  | branch cs _ _ :: ns => max (depthAll cs + 1) (depthAll ns)

end

theorem sizeAll_append (a b : List Node) : sizeAll (a ++ b) = sizeAll a + sizeAll b := by
  induction a with
  | nil => simp [sizeAll]
  | cons n ns ih => simp [sizeAll, ih, Nat.add_assoc]

/-- The leaves of the nodes in `pending`, first node first, after those in `acc`
(last one first). A branch is replaced by its children until only leaves come up. -/
def leavesOf (pending : List Node) (acc : List Leaf) : List Leaf :=
  match pending with
  | [] => acc.reverse
  | leaf l :: rest => leavesOf rest (l :: acc)
  | branch cs _ _ :: rest => leavesOf (cs ++ rest) acc
termination_by sizeAll pending
decreasing_by
  all_goals simp only [sizeAll, sizeAll_append, size]; omega

def leaves (n : Node) : List Leaf := leavesOf [n] []

end Node

end Lisplet
