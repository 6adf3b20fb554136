import Lisplet.Log
import Lisplet.Program.Resolve
import Lisplet.Tree.Reader

/-!
# What reading and resolving tell

The events of the two stages before a program runs. They follow the stages step
by step and end where the stage fails.
-/

namespace Lisplet

/-! ## Reading -/

/-- One event for each form opened, with `depth` forms open before; nothing after
a closing parenthesis that closes no form. The second part tells whether all
tokens were read. -/
def narrateForms (depth : Nat) : List Token → List Event × Bool
  | [] => ([], true)
  | t :: ts =>
    match t.kind, depth with
    | .opening, _ =>
      let (events, complete) := narrateForms (depth + 1) ts
      (.formOpened t.span :: events, complete)
    | .closing, 0 => ([], false)
    | .closing, depth + 1 => narrateForms depth ts
    | _, _ => narrateForms depth ts

def Scan.narrate (s : Scan) (bytes : Nat) : List Event :=
  let (events, complete) := narrateForms 0 s.tokens
  if complete then
    events ++ s.cut.toList.map .cutSource ++
      match s.read with
      | .ok reading => [.treeRead reading.root.children.length bytes]
      | .error _ => []
  else events

/-! ## Resolving -/

def narrateLeaf (l : Leaf) : Option Event :=
  l.binding.map fun b => .nameBound l.text l.span b

def narrateParams (functions locals : Names) : List Node → List Event × Option Names
  | [] => ([], some locals)
  | n :: ns =>
    match bindParam functions locals n with
    | .error _ => ([], none)
    | .ok (l, locals) =>
      let (events, locals) := narrateParams functions locals ns
      (l.binding.toList.map (fun b => .paramBound l.text b.index) ++ events, locals)

def Declaration.narrate (functions : Names) (index : Nat) (d : Declaration) : List Event :=
  let (name, locals) := bindLeaf functions {} d.definition.name
  let (params, locals) := narrateParams functions locals d.definition.params
  (narrateLeaf name).toList ++ params ++
    match locals with
    | none => []
    | some locals =>
      let (body, locals) := bindAll functions locals d.definition.body
      (body.flatMap fun n => n.leaves.filterMap narrateLeaf) ++
        [.functionBound index d.name d.definition.params.length locals.size]

def narrateFunctions (names : Names) (index : Nat) : List Declaration → List Event
  | [] => []
  | d :: ds =>
    d.narrate names index ++
      match d.definition.bind names index with
      | .error _ => []
      | .ok _ => narrateFunctions names (index + 1) ds

def narrateResolve : Node → List Event
  | .leaf _ => []
  | .branch nodes span _ =>
    match declare nodes span with
    | .error _ => []
    | .ok declarations => narrateFunctions (functionNames declarations) 0 declarations

end Lisplet
