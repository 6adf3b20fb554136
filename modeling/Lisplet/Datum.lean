import Lisplet.Heap
import Lisplet.Number.Decimal
import Lisplet.Text.Quoted

/-!
# Plain data

What a value looks like from outside, without places and owners: a finite tree.
A value that contains itself has no such view. Plain data can be written as
text, and a heap can be filled from it.
-/

namespace Lisplet

inductive Datum
  | null
  | bool (value : Bool)
  | int (value : Int64)
  | float (value : Float)
  | str (text : String)
  | tuple (items : List Datum)
  | list (items : List Datum)
  | table (entries : List (String × Datum))

namespace Datum

/-! ## Text -/

mutual

/-- `out` followed by the text of the datum. -/
def write (out : String) : Datum → String
  | null => out ++ "null"
  | bool b => out ++ if b then "true" else "false"
  | int n => out ++ toString n.toInt
  | float x => out ++ Number.renderFloat x
  | str s => out ++ String.ofList (Quoted.encode s.toList)
  | tuple items => writeItems (out ++ "(tuple") items ++ ")"
  | list items => writeItems (out ++ "(list") items ++ ")"
  | table entries => writeEntries (out ++ "\x7b") entries ++ "\x7d"

def writeItems (out : String) : List Datum → String
  | [] => out
  | d :: ds => writeItems (write (out ++ " ") d) ds

def writeEntries (out : String) : List (String × Datum) → String
  | [] => out
  | (key, d) :: es => writeEntries (write (out ++ key ++ ": ") d ++ ", ") es

end

def render (d : Datum) : String := d.write ""

end Datum

namespace Heap

/-! ## From the heap -/

/-- The view of a value inside the objects of `path`. An object inside itself
has none, and no path is longer than the heap. -/
def viewWithin (h : Heap) : Nat → List Ref → Option Value → Option Datum
  | 0, _, _ => none
  | _ + 1, _, none => some .null
  | _ + 1, _, some (.bool b) => some (.bool b)
  | _ + 1, _, some (.int n) => some (.int n)
  | _ + 1, _, some (.float x) => some (.float x)
  | _ + 1, _, some (.str _ s) => some (.str s)
  | fuel + 1, path, some (.tuple r) =>
    if path.contains r then none
    else ((h.itemsAt r).toList.mapM (h.viewWithin fuel (r :: path))).map .tuple
  | fuel + 1, path, some (.list r) =>
    if path.contains r then none
    else ((h.itemsAt r).toList.mapM (h.viewWithin fuel (r :: path))).map .list
  | fuel + 1, path, some (.table r) =>
    if path.contains r then none
    else ((h.tableAt r).toList.mapM fun e : String × Option Value =>
      (h.viewWithin fuel (r :: path) e.2).map fun d => (e.1, d)).map .table

def view (h : Heap) (v : Option Value) : Option Datum :=
  h.viewWithin (h.objects.size + 1) [] v

def render (h : Heap) (v : Option Value) : Option String :=
  (h.view v).map Datum.render

/-! ## To the heap -/

/-- Puts an entry into a table that is being made. The caller's hold on key and
value goes to the table; what it does not need is let go. -/
def putEntry (h : Heap) (t : Table) (key : Key) (value : Option Value) : Table × Heap :=
  match t.get? key.text with
  | some old => (t.set key value, h.releaseRefs (key.ref :: Value.refs old))
  | none => (t.set key value, h)

mutual

def build (h : Heap) : Datum → Option Value × Heap
  | .null => (none, h)
  | .bool b => (some (.bool b), h)
  | .int n => (some (.int n), h)
  | .float x => (some (.float x), h)
  | .str s =>
    let (v, h) := h.newStr s
    (some v, h)
  | .tuple items =>
    let (vs, h) := h.buildItems items
    let (v, h) := h.newTuple vs.toArray
    (some v, h)
  | .list items =>
    let (vs, h) := h.buildItems items
    let (v, h) := h.newList vs.toArray
    (some v, h)
  | .table entries =>
    let (t, h) := h.buildEntries {} entries
    let (v, h) := h.newTable t
    (some v, h)

def buildItems (h : Heap) : List Datum → List (Option Value) × Heap
  | [] => ([], h)
  | d :: ds =>
    let (v, h) := h.build d
    let (vs, h) := h.buildItems ds
    (v :: vs, h)

/-- Later entries for a key replace the value of the first one. -/
def buildEntries (h : Heap) (t : Table) : List (String × Datum) → Table × Heap
  | [] => (t, h)
  | (key, d) :: es =>
    let (r, h) := h.alloc .str
    let (v, h) := h.build d
    let (t, h) := h.putEntry t ⟨r, key⟩ v
    h.buildEntries t es

end

end Heap

end Lisplet
