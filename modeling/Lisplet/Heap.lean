import Lisplet.Table

/-!
# The heap

Objects lie in the order in which they were made, and a place is never used
again. Beside the objects the heap counts their owners: every variable, element,
table key and table value that refers to an object owns it, and so does whoever
holds a value. An object is freed when its last owner lets go, and then lets go
of everything it refers to. Counting leaves the contents alone: a freed object
keeps them, although nothing reads them any more.
-/

namespace Lisplet

/-- A heap object. The text of a string is in the values that refer to it. -/
inductive Object
  | str
  | tuple (items : Array (Option Value))
  | list (items : Array (Option Value))
  | table (table : Table)

def Object.refs : Object → List Ref
  | .str => []
  | .tuple items | .list items => items.toList.flatMap Value.refs
  | .table t => t.refs

/-- Objects and, in the same places, the numbers of their owners. -/
structure Heap where
  objects : Array Object := #[]
  owners : Array Nat := #[]

/-! ## Counting down -/

def total : List Nat → Nat
  | [] => 0
  | n :: ns => n + total ns

theorem total_set_of_getElem? : ∀ {l : List Nat} {i k x : Nat}, l[i]? = some k →
    total (l.set i x) + k = total l + x
  | [], _, _, _, h => by simp at h
  | a :: l, 0, k, x, h => by simp at h; subst h; simp [total]; omega
  | a :: l, i + 1, k, x, h => by
    have := total_set_of_getElem? (l := l) (i := i) (k := k) (x := x) (by simpa using h)
    simp only [List.set_cons_succ, total]
    omega

/-- Takes one owner away for each reference in `pending`. An object whose last
owner goes away is freed: what it owns is pending next. -/
def settle (objects : Array Object) (owners : Array Nat) (pending : List Ref) : Array Nat :=
  match pending with
  | [] => owners
  | r :: pending =>
    match _h : owners[r]? with
    | none | some 0 => settle objects owners pending
    | some 1 =>
      let owned := (objects[r]?.map Object.refs).getD []
      settle objects (owners.setIfInBounds r 0) (owned ++ pending)
    | some (k + 2) => settle objects (owners.setIfInBounds r (k + 1)) pending
termination_by (total owners.toList, pending.length)
decreasing_by
  · exact Prod.Lex.right _ (by simp)
  · exact Prod.Lex.right _ (by simp)
  · apply Prod.Lex.left
    have := total_set_of_getElem? (l := owners.toList) (i := r) (k := 1) (x := 0) (by simpa using _h)
    simp only [Array.toList_setIfInBounds]
    omega
  · apply Prod.Lex.left
    have := total_set_of_getElem? (l := owners.toList) (i := r) (k := k + 2) (x := k + 1)
      (by simpa using _h)
    simp only [Array.toList_setIfInBounds]
    omega

namespace Heap

/-! ## Owners -/

def count (h : Heap) (r : Ref) : Nat := h.owners[r]?.getD 0

def retainRef (h : Heap) (r : Ref) : Heap :=
  { h with owners := h.owners.modify r (· + 1) }

def retain (h : Heap) (v : Option Value) : Heap :=
  match v.bind Value.ref? with
  | some r => h.retainRef r
  | none => h

def releaseRefs (h : Heap) (refs : List Ref) : Heap :=
  { h with owners := settle h.objects h.owners refs }

def release (h : Heap) (v : Option Value) : Heap :=
  match v.bind Value.ref? with
  | some r => h.releaseRefs [r]
  | none => h

def releaseAll (h : Heap) (vs : List (Option Value)) : Heap :=
  h.releaseRefs (vs.flatMap Value.refs)

/-! ## Objects -/

/-- Makes an object with one owner. It takes over the references in it. -/
def alloc (h : Heap) (o : Object) : Ref × Heap :=
  (h.objects.size, ⟨h.objects.push o, h.owners.push 1⟩)

def newStr (h : Heap) (text : String) : Value × Heap :=
  let (r, h) := h.alloc .str
  (.str r text, h)

def newList (h : Heap) (items : Array (Option Value)) : Value × Heap :=
  let (r, h) := h.alloc (.list items)
  (.list r, h)

def newTuple (h : Heap) (items : Array (Option Value)) : Value × Heap :=
  let (r, h) := h.alloc (.tuple items)
  (.tuple r, h)

def newTable (h : Heap) (t : Table) : Value × Heap :=
  let (r, h) := h.alloc (.table t)
  (.table r, h)

def itemsAt (h : Heap) (r : Ref) : Array (Option Value) :=
  match h.objects[r]? with
  | some (.list items) | some (.tuple items) => items
  | _ => #[]

def tableAt (h : Heap) (r : Ref) : Table :=
  match h.objects[r]? with
  | some (.table t) => t
  | _ => {}

def modifyList (h : Heap) (r : Ref) (f : Array (Option Value) → Array (Option Value)) : Heap :=
  { h with objects := h.objects.modify r fun
      | .list items => .list (f items)
      | o => o }

def modifyTable (h : Heap) (r : Ref) (f : Table → Table) : Heap :=
  { h with objects := h.objects.modify r fun
      | .table t => .table (f t)
      | o => o }

end Heap

end Lisplet
