import Lisplet.Datum

/-!
# Outlines

A listing of a value and everything in it, row by row, with the number of owners
of each object. An object that was listed before is only named again, so that
also a value that contains itself has an outline.
-/

namespace Lisplet

inductive OutlineRow
  | null (depth : Nat)
  | scalar (depth : Nat) (type text : String)
  | str (depth owners : Nat) (text : String)
  | container (depth : Nat) (type : String) (owners : Nat)
  | key (depth : Nat) (text : String)
  | again (depth : Nat) (type : String) (owners number : Nat)

/-- The rows so far, and the objects in the order in which they were listed. -/
structure Outline where
  rows : Array OutlineRow := #[]
  seen : Array Ref := #[]

def Outline.add (o : Outline) (row : OutlineRow) : Outline :=
  { o with rows := o.rows.push row }

namespace Heap

def outlineOnto (h : Heap) : Nat → Nat → Outline → Option Value → Outline
  | 0, _, o, _ => o
  | _ + 1, depth, o, none => o.add (.null depth)
  | fuel + 1, depth, o, some v =>
    match v.ref? with
    | none => o.add (.scalar depth v.typeName ((h.render (some v)).getD ""))
    | some r =>
      match o.seen.idxOf? r with
      | some i => o.add (.again depth v.typeName (h.count r) i)
      | none =>
        let o := { o with seen := o.seen.push r }
        match v with
        | .str _ s => o.add (.str depth (h.count r) ((Datum.str s).render))
        | .table _ =>
          (h.tableAt r).toList.foldl
            (fun o (key, v) => h.outlineOnto fuel (depth + 1) (o.add (.key (depth + 1) key)) v)
            (o.add (.container depth v.typeName (h.count r)))
        | _ =>
          (h.itemsAt r).toList.foldl (fun o v => h.outlineOnto fuel (depth + 1) o v)
            (o.add (.container depth v.typeName (h.count r)))

def outline (h : Heap) (v : Option Value) : List OutlineRow :=
  (h.outlineOnto (h.objects.size + 1) 0 {} v).rows.toList

end Heap

end Lisplet
