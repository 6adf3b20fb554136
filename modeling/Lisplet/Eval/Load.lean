import Lisplet.Heap
import Lisplet.Program

/-!
# Loading

Before a program runs, every string literal of its tree gets a cell on the heap.
The leaf owns the cell, and evaluating the leaf shares it.
-/

namespace Lisplet

def loadLeaf (h : Heap) (l : Leaf) : Leaf × Heap :=
  match l.kind with
  | .str _ =>
    let (r, h) := h.alloc .str
    ({ l with cell := some r }, h)
  | _ => (l, h)

mutual

def loadNode (h : Heap) : Node → Node × Heap
  | .leaf l =>
    let (l, h) := loadLeaf h l
    (.leaf l, h)
  | .branch cs span tag =>
    let (cs, h) := loadAll h cs
    (.branch cs span tag, h)

def loadAll (h : Heap) : List Node → List Node × Heap
  | [] => ([], h)
  | n :: ns =>
    let (n, h) := loadNode h n
    let (ns, h) := loadAll h ns
    (n :: ns, h)

end

def Program.load (p : Program) : Program × Heap :=
  let (root, h) := loadNode {} p.root
  ({ p with root := root }, h)

end Lisplet
