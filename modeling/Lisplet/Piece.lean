import Lisplet.Datum

/-!
# Texts in pieces

The text of a value, one level at a time: pieces of text, and between them the
values whose texts belong there. A value that contains itself has an endless
text, and pieces are enough to write as much of it as there is room for.
-/

namespace Lisplet

inductive Piece
  | text (text : String)
  | value (value : Option Value)

namespace Piece

def ofItems (items : List (Option Value)) : List Piece :=
  items.flatMap fun v => [text " ", value v]

def ofEntries (entries : List (String × Option Value)) : List Piece :=
  entries.flatMap fun (key, v) => [text (key ++ ": "), value v, text ", "]

end Piece

def Heap.pieces (h : Heap) : Option Value → List Piece
  | none => [.text (Datum.render .null)]
  | some (.bool b) => [.text (Datum.bool b).render]
  | some (.int n) => [.text (Datum.int n).render]
  | some (.float x) => [.text (Datum.float x).render]
  | some (.str _ s) => [.text (Datum.str s).render]
  | some (.tuple r) => .text "(tuple" :: Piece.ofItems (h.itemsAt r).toList ++ [.text ")"]
  | some (.list r) => .text "(list" :: Piece.ofItems (h.itemsAt r).toList ++ [.text ")"]
  | some (.table r) => .text "\x7b" :: Piece.ofEntries (h.tableAt r).toList ++ [.text "\x7d"]

end Lisplet
