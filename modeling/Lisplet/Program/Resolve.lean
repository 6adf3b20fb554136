import Lisplet.Names
import Lisplet.Program
import Lisplet.Program.Fault

/-!
# Resolution

First all definitions are declared: each top-level form that starts with `defun`
gives one function, and `main` takes index zero. Then the names of each
definition are bound, to the function they name or else to a slot of the
definition's frame. Slots are numbered by first use, so that the parameters take
the first ones. Other top-level nodes are left alone.
-/

namespace Lisplet

/-- A definition taken apart: `(head (name params…) body…)`. -/
structure Definition where
  head : Node
  name : Leaf
  params : List Node
  prototype : Span
  body : List Node
  span : Span

def Definition.ofNode? : Node → Option (Except Fault Definition)
  | .leaf _ => none
  | .branch [] _ _ => none
  | .branch (head :: rest) span _ =>
    if head.keyword? = some .defun then
      some <| match rest with
      | [] => .error (.malformedDefun span)
      | .leaf l :: _ => .error (.expectedPrototype l.span)
      | .branch (.leaf name :: params) prototype _ :: body =>
        if name.name?.isSome then .ok ⟨head, name, params, prototype, body, span⟩
        else .error (.expectedFunctionName prototype)
      | .branch _ prototype _ :: _ => .error (.expectedFunctionName prototype)
    else none

/-! ## Declaring -/

def mainName : String := "main"

structure Declaration where
  form : Nat
  definition : Definition

def Declaration.name (d : Declaration) : String := d.definition.name.text

/-- What is declared so far; functions other than `main` in order of their
definitions. -/
structure Declared where
  main : Option Declaration := none
  others : List Declaration := []

def Declared.add (d : Declared) (new : Declaration) : Except Fault Declared :=
  let span := new.definition.name.span
  if new.name = mainName then
    if d.main.isSome then .error (.duplicateMain span) else .ok { d with main := some new }
  else if d.others.any fun old => old.name == new.name then
    .error (.duplicateFunction new.name span)
  else .ok { d with others := d.others ++ [new] }

def declareFrom (form : Nat) (d : Declared) : List Node → Except Fault Declared
  | [] => .ok d
  | node :: nodes =>
    match Definition.ofNode? node with
    | none => declareFrom (form + 1) d nodes
    | some (.error fault) => .error fault
    | some (.ok definition) =>
      match d.add ⟨form, definition⟩ with
      | .error fault => .error fault
      | .ok d => declareFrom (form + 1) d nodes

def declare (nodes : List Node) (span : Span) : Except Fault (List Declaration) :=
  match declareFrom 0 {} nodes with
  | .error fault => .error fault
  | .ok d =>
    match d.main with
    | none => .error (.missingMain span)
    | some main => .ok (main :: d.others)

def functionNames (declarations : List Declaration) : Names :=
  .ofList (declarations.map Declaration.name)

/-! ## Binding -/

/-- Binds a leaf if it is a name; a name of no function gets a slot. -/
def bindLeaf (functions locals : Names) (l : Leaf) : Leaf × Names :=
  match l.name? with
  | none => (l, locals)
  | some name =>
    match functions.find? name with
    | some i => ({ l with binding := some (.function i) }, locals)
    | none =>
      let (k, locals) := locals.intern name
      ({ l with binding := some (.slot k) }, locals)

mutual

def bindNode (functions locals : Names) : Node → Node × Names
  | .leaf l =>
    let (l, locals) := bindLeaf functions locals l
    (.leaf l, locals)
  | .branch cs span tag =>
    let (cs, locals) := bindAll functions locals cs
    (.branch cs span tag, locals)

def bindAll (functions locals : Names) : List Node → List Node × Names
  | [] => ([], locals)
  | n :: ns =>
    let (n, locals) := bindNode functions locals n
    let (ns, locals) := bindAll functions locals ns
    (n :: ns, locals)

end

def bindParam (functions locals : Names) : Node → Except Fault (Leaf × Names)
  | .branch _ span _ => .error (.expectedParameter span)
  | .leaf l =>
    match l.name? with
    | none => .error (.expectedParameter l.span)
    | some name =>
      if functions.contains name then .error (.parameterShadowsFunction name l.span)
      else if locals.contains name then .error (.duplicateParameter name l.span)
      else
        let (k, locals) := locals.intern name
        .ok ({ l with binding := some (.slot k) }, locals)

def bindParams (functions locals : Names) : List Node → Except Fault (List Node × Names)
  | [] => .ok ([], locals)
  | n :: ns =>
    match bindParam functions locals n with
    | .error fault => .error fault
    | .ok (l, locals) =>
      match bindParams functions locals ns with
      | .error fault => .error fault
      | .ok (ns, locals) => .ok (.leaf l :: ns, locals)

def Definition.bind (functions : Names) (index : Nat) (d : Definition) :
    Except Fault (Node × Nat) :=
  let (name, locals) := bindLeaf functions {} d.name
  match bindParams functions locals d.params with
  | .error fault => .error fault
  | .ok (params, locals) =>
    let (body, locals) := bindAll functions locals d.body
    let prototype := Node.branch (.leaf name :: params) d.prototype (some index)
    .ok (.branch (d.head :: prototype :: body) d.span (some locals.size), locals.size)

/-- Binds the definitions of the functions from number `index` on, each in its
place among the top-level nodes, and completes the function table. -/
def bindFunctions (names : Names) (index : Nat) (nodes : List Node) :
    List Declaration → Except Fault (List Node × List Function)
  | [] => .ok (nodes, [])
  | d :: ds =>
    match d.definition.bind names index with
    | .error fault => .error fault
    | .ok (form, locals) =>
      match bindFunctions names (index + 1) (nodes.set d.form form) ds with
      | .error fault => .error fault
      | .ok (nodes, functions) =>
        .ok (nodes, ⟨d.name, d.form, d.definition.params.length, locals,
          d.definition.name.span⟩ :: functions)

def resolve : Node → Except Fault Program
  | .leaf l => .error (.missingMain l.span)
  | .branch nodes span tag =>
    match declare nodes span with
    | .error fault => .error fault
    | .ok declarations =>
      match bindFunctions (functionNames declarations) 0 nodes declarations with
      | .error fault => .error fault
      | .ok (nodes, functions) => .ok ⟨.branch nodes span tag, functions⟩

end Lisplet
